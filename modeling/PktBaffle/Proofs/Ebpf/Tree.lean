import PktBaffle.Forward.Shape
import PktBaffle.Proofs.Ebpf.Emit

namespace PktBaffle.Proofs.Ebpf
open PktBaffle.Ebpf Forward PktBaffle.Extended
open PktBaffle.Classic (LinkType concat)

/-- The work stack of `emit_expr` as a recursion over the expression. -/
def emitTree : Expr → Gen Patches
  | .primitive p => emitPrimitive p
  | .and l r => do
    let leftP ← emitTree l
    let rightStart ← insnsLen
    resolveAll leftP.success rightStart
    let rightP ← emitTree r
    return ⟨rightP.success, concat leftP.failure rightP.failure⟩
  | .or l r => do
    let leftP ← emitTree l
    let jaIdx ← push (.ja 0)
    let rightStart ← insnsLen
    resolveAll leftP.failure rightStart
    let rightP ← emitTree r
    return ⟨concat (leftP.success ++ [((), jaIdx)]) rightP.success, rightP.failure⟩
  | .not e => do
    let innerP ← emitTree e
    let jaIdx ← push (.ja 0)
    let notSuccStart ← insnsLen
    resolveAll innerP.failure notSuccStart
    return ⟨[], innerP.success ++ [((), jaIdx)]⟩

theorem emitLoop_turn (fuel : Nat) (step : Work) (work : List Work) (done : List Patches) :
    emitLoop (fuel + 1) ⟨step :: work, done⟩ =
      (emitStep step ⟨work, done⟩ >>= emitLoop fuel) := rfl

/-- The loop emits the expression on top of its stack and goes on with the rest. -/
theorem emitLoop_tree (e : Expr) (fuel : Nat) (work : List Work) (done : List Patches) :
    emitLoop (emitFuel e + fuel) ⟨.emit e :: work, done⟩ =
      (emitTree e >>= fun p => emitLoop fuel ⟨work, p :: done⟩) := by
  induction e generalizing fuel work done with
  | primitive p =>
    rw [emitFuel, Nat.add_comm, emitLoop_turn]
    simp [emitStep, emitTree]
  | and l r ihl ihr =>
    have hf : emitFuel (.and l r) + fuel = emitFuel l + (emitFuel r + (fuel + 1) + 1) + 1 := by
      simp only [emitFuel]
      omega
    rw [hf, emitLoop_turn]
    simp only [emitStep, pure_bind, ihl, emitLoop_turn, bind_assoc, ihr, emitTree]
  | or l r ihl ihr =>
    have hf : emitFuel (.or l r) + fuel = emitFuel l + (emitFuel r + (fuel + 1) + 1) + 1 := by
      simp only [emitFuel]
      omega
    rw [hf, emitLoop_turn]
    simp only [emitStep, pure_bind, ihl, emitLoop_turn, bind_assoc, ihr, emitTree]
  | not e ih =>
    have hf : emitFuel (.not e) + fuel = emitFuel e + (fuel + 1) + 1 := by
      simp only [emitFuel]
      omega
    rw [hf, emitLoop_turn]
    simp only [emitStep, pure_bind, ih, emitLoop_turn, bind_assoc, emitTree]

theorem emitExpr_tree (e : Expr) : emitExpr e = emitTree e := by
  have h := emitLoop_tree e 0 [] []
  rw [Nat.add_zero] at h
  simp only [emitExpr, h, bind_assoc]
  funext cg
  cases hm : emitTree e cg with
  | error err => exact bind_error hm
  | ok p =>
    rw [@bind_run _ _ _ _ _ p.2 p.1 hm]
    rfl

/-- The code of an expression, or the error of a primitive that has none. -/
def exprCode (link : LinkType) : Expr → Except Error Code
  | .primitive p => leafCode link p
  | .and l r =>
    match exprCode link l, exprCode link r with
    | .ok c, .ok d => .ok (Frag.seq c d)
    | .ok _, .error e => .error e
    | .error e, _ => .error e
  | .or l r =>
    match exprCode link l, exprCode link r with
    | .ok c, .ok d => .ok (Frag.alt (Cell.hole (.ja 0) ()) c d)
    | .ok _, .error e => .error e
    | .error e, _ => .error e
  | .not e => (exprCode link e).map (Frag.neg (Cell.hole (.ja 0) ()))

section Inversion

variable {link : LinkType} {l r : Expr} {c : Code}

theorem exprCode_and (h : exprCode link (.and l r) = .ok c) :
    ∃ a b, exprCode link l = .ok a ∧ exprCode link r = .ok b ∧ c = Frag.seq a b := by
  simp only [exprCode] at h
  split at h
  · rename_i a b ha hb
    exact ⟨a, b, ha, hb, (Except.ok.inj h).symm⟩
  · cases h
  · cases h

theorem exprCode_or (h : exprCode link (.or l r) = .ok c) :
    ∃ a b, exprCode link l = .ok a ∧ exprCode link r = .ok b ∧
      c = Frag.alt (Cell.hole (.ja 0) ()) a b := by
  simp only [exprCode] at h
  split at h
  · rename_i a b ha hb
    exact ⟨a, b, ha, hb, (Except.ok.inj h).symm⟩
  · cases h
  · cases h

theorem exprCode_not (h : exprCode link (.not l) = .ok c) :
    ∃ a, exprCode link l = .ok a ∧ c = Frag.neg (Cell.hole (.ja 0) ()) a := by
  simp only [exprCode] at h
  cases ha : exprCode link l with
  | error e =>
    rw [ha] at h
    cases h
  | ok a =>
    rw [ha] at h
    exact ⟨a, rfl, (Except.ok.inj h).symm⟩

end Inversion

end PktBaffle.Proofs.Ebpf
