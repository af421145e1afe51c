import PktBaffle.Proofs.Classic.Refine

namespace PktBaffle.Proofs.Classic
open Bpf PktBaffle.Classic

/-- The guards in front of an OR, from what its arms require. -/
def emitFront (mode : HoistMode) (left right : Expr) : Gen (List Patch) :=
  match mode with
  | .hoist => emitHoist ((required left).intersect (required right))
  | .plain => return []

/-- Emission as a recursion over the tree. What the work stack carries between the operands
of an operator is a local here. -/
def emitRec (mode : HoistMode) : Expr → Gen Patches
  | .primitive p => emitPrimitive p
  | .and left right => do
    let leftP ← emitRec mode left
    resolveAll leftP.success (← insnsLen)
    bumpDepth (leadsVlan left)
    let rightP ← emitRec mode right
    unbumpDepth (leadsVlan left)
    return ⟨rightP.success, concat leftP.failure rightP.failure⟩
  | .or left right => do
    let hoistFailure ← emitFront mode left right
    let hoisted ← get
    let leftP ← emitRec mode left
    let leftFacts := (← get).facts
    restore hoisted.facts hoisted.xWrites
    let jaIdx ← push (.ja 0)
    resolveAll leftP.failure (← insnsLen)
    let rightP ← emitRec mode right
    modifyFacts fun facts => Facts.meet leftFacts facts
    return ⟨concat (leftP.success ++ [(.ja, jaIdx)]) rightP.success,
      concat rightP.failure hoistFailure⟩
  | .not inner => do
    let entry ← get
    let innerP ← emitRec mode inner
    restore entry.facts entry.xWrites
    let jaIdx ← push (.ja 0)
    resolveAll innerP.failure (← insnsLen)
    return ⟨[], innerP.success ++ [(.ja, jaIdx)]⟩

section Loop

variable {mode : HoistMode} {root : Expr}

theorem emitOrFront_eq {l r : Node} {memo : GuardMemo} (hl : In root l) (hr : In root r)
    (hm : MemoOk root memo) : ∃ memo', MemoOk root memo' ∧ emitOrFront mode l r memo =
      emitFront mode l.expr r.expr >>= fun f => pure (f, memo') := by
  cases mode with
  | plain => exact ⟨memo, hm, by simp only [emitOrFront, emitFront, pure_bind]⟩
  | hoist =>
    obtain ⟨memo₁, hr₁, hm₁⟩ := requiredGuards_run hl hm
    obtain ⟨memo₂, hr₂, hm₂⟩ := requiredGuards_run hr hm₁
    refine ⟨memo₂, hm₂, ?_⟩
    show (liftM (requiredGuards l memo) >>= fun q => liftM (requiredGuards r q.2) >>= fun q' =>
      emitHoist (q.1.intersect q'.1) >>= fun f => pure (f, q'.2)) = _
    rw [hr₁]
    show (liftM (requiredGuards r memo₁) >>= fun q' =>
      emitHoist ((required l.expr).intersect q'.1) >>= fun f => pure (f, q'.2)) = _
    rw [hr₂]
    rfl

/-- The turns for one node: they do what the recursion does, and leave its patches and the
leading-vlan bit on top of the done stack and a correct memo. -/
def Simulates (mode : HoistMode) (e : Expr) : Prop :=
  ∀ root (n : Node) guards, n.expr = e → In root n → MemoOk root guards →
    ∃ guards', MemoOk root guards' ∧ ∀ work done fuel,
      emitLoop mode (emitFuel e + fuel) ⟨.emit n :: work, done, guards⟩ =
        emitRec mode e >>= fun q => emitLoop mode fuel ⟨work, (q, leadsVlan e) :: done, guards'⟩

theorem emitLoop_succ (fuel : Nat) (step : Work) (work : List Work)
    (done : List (Patches × Bool)) (guards : GuardMemo) :
    emitLoop mode (fuel + 1) ⟨step :: work, done, guards⟩ =
      emitStep mode step ⟨work, done, guards⟩ >>= emitLoop mode fuel := rfl

theorem simulates_primitive (p : Primitive) : Simulates mode (.primitive p) := by
  rintro root ⟨addr, _⟩ guards rfl - hm
  refine ⟨guards, hm, fun work done fuel => ?_⟩
  rw [emitFuel, Nat.add_comm, emitLoop_succ]
  simp only [emitStep, bind_assoc, pure_bind]
  rfl

theorem simulates_and {l r : Expr} (hl : Simulates mode l) (hr : Simulates mode r) :
    Simulates mode (.and l r) := by
  rintro root ⟨addr, _⟩ guards rfl hn hm
  obtain ⟨guards₁, hm₁, h₁⟩ := hl root (.below addr .left l) guards rfl
    (hn.below (c := .left) rfl) hm
  obtain ⟨guards₂, hm₂, h₂⟩ := hr root (.below addr .right r) guards₁ rfl
    (hn.below (c := .right) rfl) hm₁
  refine ⟨guards₂, hm₂, fun work done fuel => ?_⟩
  have hsplit : emitFuel (.and l r) + fuel = emitFuel l + (emitFuel r + (fuel + 1) + 1) + 1 := by
    simp only [emitFuel]
    omega
  rw [hsplit, emitLoop_succ]
  simp only [emitStep, pure_bind, h₁, emitLoop_succ, bind_assoc, h₂, emitRec]
  rfl

theorem simulates_not {e : Expr} (he : Simulates mode e) : Simulates mode (.not e) := by
  rintro root ⟨addr, _⟩ guards rfl hn hm
  obtain ⟨guards₁, hm₁, h₁⟩ := he root (.below addr .inner e) guards rfl
    (hn.below (c := .inner) rfl) hm
  refine ⟨guards₁, hm₁, fun work done fuel => ?_⟩
  have hsplit : emitFuel (.not e) + fuel = emitFuel e + (fuel + 1) + 1 := by
    simp only [emitFuel]
    omega
  rw [hsplit, emitLoop_succ]
  simp only [emitStep, bind_assoc, pure_bind, h₁, emitLoop_succ, emitRec]
  rfl

theorem simulates_or {l r : Expr} (hl : Simulates mode l) (hr : Simulates mode r) :
    Simulates mode (.or l r) := by
  rintro root ⟨addr, _⟩ guards rfl hn hm
  obtain ⟨guards₀, hm₀, h₀⟩ := @emitOrFront_eq mode _ _ _ _ (hn.below (c := .left) (e := l) rfl)
    (hn.below (c := .right) (e := r) rfl) hm
  obtain ⟨guards₁, hm₁, h₁⟩ := hl root (.below addr .left l) guards₀ rfl
    (hn.below (c := .left) rfl) hm₀
  obtain ⟨guards₂, hm₂, h₂⟩ := hr root (.below addr .right r) guards₁ rfl
    (hn.below (c := .right) rfl) hm₁
  refine ⟨guards₂, hm₂, fun work done fuel => ?_⟩
  have hsplit : emitFuel (.or l r) + fuel = emitFuel l + (emitFuel r + (fuel + 1) + 1) + 1 := by
    simp only [emitFuel]
    omega
  rw [hsplit, emitLoop_succ]
  simp only [emitStep, bind_assoc, pure_bind, h₀, h₁, emitLoop_succ, h₂, emitRec]
  rfl

theorem simulates (mode : HoistMode) (e : Expr) : Simulates mode e := by
  induction e with
  | and l r hl hr => exact simulates_and hl hr
  | or l r hl hr => exact simulates_or hl hr
  | not e he => exact simulates_not he
  | primitive p => exact simulates_primitive p

/-- The walk with its two stacks is the recursion: the same patches, the same state, the same
error. -/
theorem emitExpr_eq (mode : HoistMode) (e : Expr) : emitExpr mode e = emitRec mode e := by
  obtain ⟨guards, -, h⟩ := simulates mode e e ⟨[], e⟩ [] rfl (in_root e) (memoOk_nil e)
  unfold emitExpr
  rw [show emitFuel e = emitFuel e + 0 from rfl, h, bind_assoc]
  exact bind_pure _

/-- Emission and the guard analysis, each with its explicit stacks, are the recursions they
replace. The memo may hold anything that is right for the tree the node stands in. -/
theorem emission_recursive (mode : HoistMode) (e : Expr) (cg : Codegen) {n : Node}
    {memo : GuardMemo} (hn : In root n) (hm : MemoOk root memo) :
    emitExpr mode e cg = emitRec mode e cg ∧
      ∃ memo', requiredGuards n memo = .ok (required n.expr, memo') ∧ MemoOk root memo' :=
  ⟨congrFun (emitExpr_eq mode e) cg, requiredGuards_run hn hm⟩

end Loop

/-- The right arm of `tcp or tcp and udp`, with the guards of the whole already known. -/
theorem emission_recursive_shared :
    let tcp : Expr := .primitive (.proto .tcp)
    let arm : Expr := .and tcp (.primitive (.proto .udp))
    let root : Expr := .or tcp arm
    emitExpr .hoist root (Codegen.new .ethernet) = emitRec .hoist root (Codegen.new .ethernet) ∧
      ∃ memo', requiredGuards ⟨[.right], arm⟩ [([], ip4Guards 6)] = .ok (ip4Guards 6, memo') ∧
        MemoOk root memo' := by
  intro tcp arm root
  refine emission_recursive .hoist root (Codegen.new .ethernet) (n := ⟨[.right], arm⟩) rfl ?_
  intro q hq e he
  obtain rfl := List.mem_singleton.mp hq
  obtain rfl : root = e := Option.some.inj he
  decide

end PktBaffle.Proofs.Classic
