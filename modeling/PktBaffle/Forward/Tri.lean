import Mathlib

namespace PktBaffle.Forward

/-- Outcome of a test that may have to give up: accept, reject, or (`none`) abort. -/
abbrev Tri := Option Bool

namespace Tri

/-- Left to right conjunction: the right side is looked at only if the left accepts. -/
def and (p q : Tri) : Tri :=
  match p with
  | some true => q
  | r => r

/-- Left to right disjunction: the right side is looked at only if the left rejects. -/
def or (p q : Tri) : Tri :=
  match p with
  | some false => q
  | r => r

def not (p : Tri) : Tri := p.map (! ·)

@[simp] theorem and_true (q : Tri) : and (some true) q = q := rfl
@[simp] theorem and_false (q : Tri) : and (some false) q = some false := rfl
@[simp] theorem and_none (q : Tri) : and none q = none := rfl
@[simp] theorem or_true (q : Tri) : or (some true) q = some true := rfl
@[simp] theorem or_false (q : Tri) : or (some false) q = q := rfl
@[simp] theorem or_none (q : Tri) : or none q = none := rfl
@[simp] theorem not_some (b : Bool) : not (some b) = some (!b) := rfl
@[simp] theorem not_none : not none = none := rfl

@[simp] theorem and_accept (p : Tri) : and p (some true) = p := by
  rcases p with _ | _ | _ <;> rfl

theorem and_assoc (p q r : Tri) : and (and p q) r = and p (and q r) := by
  rcases p with _ | _ | _ <;> rfl

theorem and_eq_true {p q : Tri} : and p q = some true ↔ p = some true ∧ q = some true := by
  rcases p with _ | _ | _ <;> simp

theorem or_eq_true {p q : Tri} :
    or p q = some true ↔ p = some true ∨ (p = some false ∧ q = some true) := by
  rcases p with _ | _ | _ <;> simp

theorem not_eq_true {p : Tri} : not p = some true ↔ p = some false := by
  rcases p with _ | _ | _ <;> simp

theorem and_ne_none_left {p q : Tri} (h : and p q ≠ none) : p ≠ none := by
  rcases p with _ | _ | _ <;> simp_all

/-- Without aborts conjunction is the usual one. -/
@[simp] theorem and_some (a b : Bool) : and (some a) (some b) = some (a && b) := by
  cases a <;> rfl

@[simp] theorem or_some (a b : Bool) : or (some a) (some b) = some (a || b) := by
  cases a <;> rfl

end Tri

end PktBaffle.Forward
