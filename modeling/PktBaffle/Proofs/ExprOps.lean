import PktBaffle.ExprOps

namespace PktBaffle.Expr

section Write

variable {root sub x y : Expr} {c : Child}

theorem child_setChild (h : root.child c = some sub) : (root.setChild c x).child c = some x := by
  cases root <;> cases c <;> first | rfl | cases h

theorem setChild_setChild : (root.setChild c x).setChild c y = root.setChild c y := by
  cases root <;> cases c <;> rfl

theorem write_cons (h : root.child c = some sub) (place : Place) :
    write x (c :: place) root = (write x place sub).map (root.setChild c) := by
  cases hw : write x place sub <;> simp [write, h, hw]

/-- A write below a node just written is a write of that node with the change in it. -/
theorem write_below (place below : Place) (root : Expr) :
    (write x place root).bind (write y (place ++ below)) =
      (write y below x).bind fun x => write x place root := by
  induction place generalizing root with
  | nil => simp [write]
  | cons c place ih =>
    cases hc : root.child c with
    | none => simp [write, hc]
    | some sub =>
      have hbelow : ∀ sub', write y (c :: place ++ below) (root.setChild c sub') =
          (write y (place ++ below) sub').map (root.setChild c) := by
        intro sub'
        have hset : (root.setChild c sub').setChild c = root.setChild c :=
          funext fun _ => setChild_setChild
        rw [List.cons_append, write_cons (child_setChild hc), hset]
      calc (write x (c :: place) root).bind (write y (c :: place ++ below))
          = (write x place sub).bind fun sub' =>
              (write y (place ++ below) sub').map (root.setChild c) := by
            rw [write_cons hc, Option.bind_map]
            exact congrArg _ (funext hbelow)
        _ = ((write x place sub).bind (write y (place ++ below))).map (root.setChild c) := by
            rw [Option.map_bind]
            rfl
        _ = ((write y below x).bind fun x => write x place sub).map (root.setChild c) := by
            rw [ih]
        _ = (write y below x).bind fun x => write x (c :: place) root := by
            rw [Option.map_bind]
            exact congrArg _ (funext fun x => (write_cons hc place).symm)

end Write

section Clone

/-- The tree with every slot that is still on the stack filled with its source. -/
def filled : List (Expr × Place) → Expr → Option Expr
  | [], root => some root
  | (src, dst) :: stack, root => (write src dst root).bind (filled stack)

/-- Filling the slots of a copied node gives the node. -/
theorem write_slots (src root : Expr) (dst : Place) (stack : List (Expr × Place)) :
    (write src.node dst root).bind (filled (src.slots dst ++ stack)) =
      filled ((src, dst) :: stack) root := by
  have hchild : ∀ (x y : Expr) (c : Child) (k : Expr → Option Expr), (x.child c).isSome →
      (write x dst root).bind (fun r => (write y (dst ++ [c]) r).bind k) =
        (write (x.setChild c y) dst root).bind k := by
    intro x y c k hc
    obtain ⟨sub, hsub⟩ := Option.isSome_iff_exists.mp hc
    rw [← Option.bind_assoc, write_below, write_cons hsub, write]
    rfl
  cases src with
  | and l r =>
    show (write _ dst root).bind (fun r₁ => (write l (dst ++ [.left]) r₁).bind fun r₂ =>
      (write r (dst ++ [.right]) r₂).bind (filled stack)) = _
    rw [hchild _ _ _ _ rfl, hchild _ _ _ _ rfl]
    rfl
  | or l r =>
    show (write _ dst root).bind (fun r₁ => (write l (dst ++ [.left]) r₁).bind fun r₂ =>
      (write r (dst ++ [.right]) r₂).bind (filled stack)) = _
    rw [hchild _ _ _ _ rfl, hchild _ _ _ _ rfl]
    rfl
  | not e =>
    show (write _ dst root).bind (fun r₁ => (write e (dst ++ [.inner]) r₁).bind (filled stack)) = _
    rw [hchild _ _ _ _ rfl]
    rfl
  | primitive p => rfl

/-- The turns the nodes on a stack still take. -/
def pending {α : Type} (stack : List (Expr × α)) : Nat := (stack.map fun q => q.1.nodes).sum

theorem pending_slots (src : Expr) (dst : Place) (stack : List (Expr × Place)) :
    1 + pending (src.slots dst ++ stack) = pending ((src, dst) :: stack) := by
  cases src <;> simp [pending, slots, node, nodes] <;> omega

theorem nodes_pos (e : Expr) : 0 < e.nodes := by
  cases e <;> simp [nodes]

/-- Each turn leaves the filled tree as it is. -/
theorem cloneLoop_filled (fuel : Nat) (stack : List (Expr × Place)) (root : Expr)
    (h : pending stack ≤ fuel) : cloneLoop fuel stack root = filled stack root := by
  induction fuel generalizing stack root with
  | zero =>
    cases stack with
    | nil => rfl
    | cons q stack =>
      have hn := pending_slots q.1 q.2 stack
      change 1 + _ = pending (q :: stack) at hn
      omega
  | succ fuel ih =>
    cases stack with
    | nil => rfl
    | cons q stack =>
      have hn := pending_slots q.1 q.2 stack
      change 1 + _ = pending (q :: stack) at hn
      rw [← write_slots]
      show (write q.1.node q.2 root).bind (cloneLoop fuel (q.1.slots q.2 ++ stack)) = _
      exact congrArg _ (funext fun root => ih _ root (by omega))

end Clone

section Eq

/-- The loop of `eq` answers whether all pairs on the stack are equal. -/
theorem eqLoop_decides (fuel : Nat) (stack : List (Expr × Expr)) (h : pending stack ≤ fuel) :
    eqLoop fuel stack = some (decide (∀ q ∈ stack, q.1 = q.2)) := by
  induction fuel generalizing stack with
  | zero =>
    cases stack with
    | nil => rfl
    | cons q stack =>
      have hn := q.1.nodes_pos
      simp only [pending, List.map_cons, List.sum_cons] at h
      omega
  | succ fuel ih =>
    match stack with
    | [] => rfl
    | (.and al ar, b) :: stack =>
      cases b with
      | and bl br =>
        rw [eqLoop, ih _ (by simp [pending, nodes] at h ⊢; omega)]
        simp [and_assoc]
      | _ => simp [eqLoop]
    | (.or al ar, b) :: stack =>
      cases b with
      | or bl br =>
        rw [eqLoop, ih _ (by simp [pending, nodes] at h ⊢; omega)]
        simp [and_assoc]
      | _ => simp [eqLoop]
    | (.not a, b) :: stack =>
      cases b with
      | not b =>
        rw [eqLoop, ih _ (by simp [pending, nodes] at h ⊢; omega)]
        simp
      | _ => simp [eqLoop]
    | (.primitive p, b) :: stack =>
      cases b with
      | primitive q =>
        by_cases hp : p = q
        · rw [eqLoop, if_pos hp, ih stack (by simp [pending, nodes] at h ⊢; omega)]
          simp [hp]
        · simp [eqLoop, hp]
      | _ => simp [eqLoop]

end Eq

/-- Both loops end: the copy is the tree itself, and the comparison answers whether the two
trees are the same. -/
theorem clone_eq (a b : Expr) : clone a = some a ∧ eq a b = some (decide (a = b)) := by
  constructor
  · rw [clone, cloneLoop_filled _ _ _ (by simp [pending])]
    rfl
  · rw [eq, eqLoop_decides _ _ (by simp [pending])]
    simp

end PktBaffle.Expr
