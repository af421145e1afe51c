import PktBaffle.Proofs.Classic.Verdict

namespace PktBaffle.Proofs.Classic
open Bpf Forward PktBaffle.Classic PktBaffle.Optimizer PktBaffle.Proofs.Optimizer

/-- A guard as the set of what it tests. -/
def guardsOf : Guard → GuardSet
  | .none => .default
  | .ethertype et => etherGuard et
  | .ip4 n => ip4Guards n
  | .ip6 n => ip6Guards n
  | .ports want => { GuardSet.default with portPrereqs := some want }

/-- What a primitive requires is what its guard tests. -/
theorem primitiveGuards_eq (p : Primitive) : primitiveGuards p = guardsOf (guardOf p) := by
  have ports : ∀ proto, ({ GuardSet.default with portPrereqs := (l4setFor proto).toOption } :
      GuardSet) = guardsOf (portsGuard proto) := by
    intro proto
    unfold portsGuard
    cases l4setFor proto <;> rfl
  cases p with
  | proto q => cases q <;> rfl
  | host addr dir => cases addr <;> rfl
  | port port dir proto => exact ports proto
  | portRange lo hi dir proto => exact ports proto
  | _ => rfl

/-- The value of every guard of the set satisfies `P`. -/
structure Each (pkt : Vm.Packet) (link : LinkType) (P : Tri → Prop) (g : GuardSet) : Prop where
  ether : ∀ et, g.ethertype = some et → P (etherVal pkt link 0 et)
  ip4 : ∀ n, g.ip4Proto = some n → P (guardVal pkt link 0 (.ip4 n))
  ip6 : ∀ n, g.ip6Nh = some n → P (guardVal pkt link 0 (.ip6 n))
  ports : ∀ want, g.portPrereqs = some want → P (portsVal pkt link 0 want)

section Each

variable {pkt : Vm.Packet} {link : LinkType} {P : Tri → Prop} {g h : GuardSet}

theorem or_eq_some {α : Type} {x y : Option α} {v : α} (h : x.or y = some v) :
    x = some v ∨ y = some v := by
  cases x with
  | none => exact .inr h
  | some w => exact .inl h

theorem Each.default : Each pkt link P .default := by
  constructor <;> intro v hv <;> cases hv

theorem Each.union (hg : Each pkt link P g) (hh : Each pkt link P h) :
    Each pkt link P (g.union h) where
  ether v hv := (or_eq_some hv).elim (hg.ether v) (hh.ether v)
  ip4 v hv := (or_eq_some hv).elim (hg.ip4 v) (hh.ip4 v)
  ip6 v hv := (or_eq_some hv).elim (hg.ip6 v) (hh.ip6 v)
  ports v hv := (or_eq_some hv).elim (hg.ports v) (hh.ports v)

theorem Each.intersect_left (hg : Each pkt link P g) : Each pkt link P (g.intersect h) where
  ether v hv := hg.ether v (both_eq hv).1
  ip4 v hv := hg.ip4 v (both_eq hv).1
  ip6 v hv := hg.ip6 v (both_eq hv).1
  ports v hv := hg.ports v (both_eq hv).1

theorem Each.intersect_right (hh : Each pkt link P h) : Each pkt link P (g.intersect h) where
  ether v hv := hh.ether v (both_eq hv).2
  ip4 v hv := hh.ip4 v (both_eq hv).2
  ip6 v hv := hh.ip6 v (both_eq hv).2
  ports v hv := hh.ports v (both_eq hv).2

/-- The tests of one guard, when the value of its first test does too. -/
theorem Each.of_guard {gd : Guard} (hv : P (guardVal pkt link 0 gd))
    (hand : ∀ p q : Tri, P (p.and q) → P p) : Each pkt link P (guardsOf gd) := by
  cases gd with
  | none => exact .default
  | ethertype et =>
    refine ⟨fun v h => ?_, fun v h => ?_, fun v h => ?_, fun v h => ?_⟩
    · cases h
      exact hv
    · cases h
    · cases h
    · cases h
  | ip4 n =>
    refine ⟨fun v h => ?_, fun v h => ?_, fun v h => ?_, fun v h => ?_⟩
    · cases h
      exact hand _ _ hv
    · cases h
      exact hv
    · cases h
    · cases h
  | ip6 n =>
    refine ⟨fun v h => ?_, fun v h => ?_, fun v h => ?_, fun v h => ?_⟩
    · cases h
      exact hand _ _ hv
    · cases h
    · cases h
      exact hv
    · cases h
  | ports want =>
    refine ⟨fun v h => ?_, fun v h => ?_, fun v h => ?_, fun v h => ?_⟩
    · cases h
    · cases h
    · cases h
    · cases h
      exact hv

/-- Every guard that is hoisted comes from the set. -/
theorem Each.hoisted (hg : Each pkt link P g) :
    ∀ gd ∈ hoisted g link, P (guardVal pkt link 0 gd) := by
  intro gd hgd
  simp only [Classic.hoisted, List.mem_append] at hgd
  rcases hgd with ((h | h) | h) | h
  · split at h
    · obtain ⟨et, he, rfl⟩ := Option.map_eq_some_iff.mp (Option.mem_toList.mp h)
      exact hg.ether et he
    · exact absurd h List.not_mem_nil
  · obtain ⟨n, he, rfl⟩ := Option.map_eq_some_iff.mp (Option.mem_toList.mp h)
    exact hg.ip4 n he
  · obtain ⟨n, he, rfl⟩ := Option.map_eq_some_iff.mp (Option.mem_toList.mp h)
    exact hg.ip6 n he
  · obtain ⟨want, he, rfl⟩ := Option.map_eq_some_iff.mp (Option.mem_toList.mp h)
    exact hg.ports want he

end Each

section Required

variable {pkt : Vm.Packet} {link : LinkType} {mode : HoistMode}

theorem guardsVal_accepts {gs : List Guard} {d : Nat}
    (h : ∀ g ∈ gs, guardVal pkt link d g = some true) : guardsVal pkt link d gs = some true := by
  induction gs with
  | nil => rfl
  | cons g gs ih =>
    rw [guardsVal, h g List.mem_cons_self, Tri.and_true]
    exact ih (fun g' hg' => h g' (List.mem_cons_of_mem _ hg'))

theorem guardsVal_defined {gs : List Guard} {d : Nat}
    (h : ∀ g ∈ gs, guardVal pkt link d g ≠ none) : guardsVal pkt link d gs ≠ none := by
  induction gs with
  | nil => simp [guardsVal]
  | cons g gs ih =>
    have hg := h g List.mem_cons_self
    have ht := ih (fun g' hg' => h g' (List.mem_cons_of_mem _ hg'))
    rw [guardsVal]
    cases hv : guardVal pkt link d g with
    | none => exact absurd hv hg
    | some b =>
      cases b with
      | false => simp
      | true => exact ht

/-- Without VLAN tags an expression accepts only where the guards it requires do. -/
theorem required_accepts {e : Expr} (h : Flat pkt link e)
    (hv : value pkt link mode e 0 = some true) : Each pkt link (· = some true) (required e) := by
  induction e with
  | primitive p =>
    rw [required, primitiveGuards_eq]
    exact Each.of_guard (Tri.and_eq_true.mp hv).1 (fun p q h => (Tri.and_eq_true.mp h).1)
  | and l r hl hr =>
    obtain ⟨hfl, hfr⟩ := h.and
    obtain ⟨hvl, hvr⟩ := Tri.and_eq_true.mp hv
    simp only [Classic.deeper, h.deeper hvl] at hvr
    exact (hl hfl hvl).union (hr hfr hvr)
  | or l r hl hr =>
    obtain ⟨hfl, hfr⟩ := h.or
    obtain ⟨-, hv⟩ := Tri.and_eq_true.mp hv
    rcases Tri.or_eq_true.mp hv with hv | ⟨-, hv⟩
    · exact (hl hfl hv).intersect_left
    · exact (hr hfr hv).intersect_right
  | not e _ => exact .default

/-- The guards an expression requires load no more than its leaves. -/
theorem required_defined {e : Expr} (h : ∀ p ∈ e.leaves, leafVal pkt link p 0 ≠ none) :
    Each pkt link (· ≠ none) (required e) := by
  induction e with
  | primitive p =>
    rw [required, primitiveGuards_eq]
    exact Each.of_guard (Tri.and_ne_none_left (h p List.mem_cons_self))
      (fun p q h => Tri.and_ne_none_left h)
  | and l r hl hr =>
    exact (hl (fun p hp => h p (List.mem_append_left _ hp))).union
      (hr (fun p hp => h p (List.mem_append_right _ hp)))
  | or l r hl hr => exact (hl (fun p hp => h p (List.mem_append_left _ hp))).intersect_left
  | not e _ => exact .default

/-- The ordinary boolean value, where every leaf has one. -/
theorem value_eval {e : Expr} (h : Flat pkt link e)
    (hd : ∀ p ∈ e.leaves, leafVal pkt link p 0 ≠ none) :
    value pkt link mode e 0 = some (e.eval (fun p => leafVal pkt link p 0 == some true)) := by
  induction e with
  | primitive p =>
    have hp := hd p List.mem_cons_self
    simp only [value, Expr.eval]
    cases hv : leafVal pkt link p 0 with
    | none => exact absurd hv hp
    | some b => cases b <;> rfl
  | and l r hl hr =>
    obtain ⟨hfl, hfr⟩ := h.and
    have h₁ := hl hfl (fun p hp => hd p (List.mem_append_left _ hp))
    have h₂ := hr hfr (fun p hp => hd p (List.mem_append_right _ hp))
    simp only [value, Expr.eval]
    cases hb : l.eval (fun p => leafVal pkt link p 0 == some true) with
    | false =>
      rw [hb] at h₁
      rw [h₁]
      rfl
    | true =>
      rw [hb] at h₁
      simp only [Classic.deeper, h.deeper h₁]
      rw [h₁, Tri.and_true]
      exact h₂
  | or l r hl hr =>
    obtain ⟨hfl, hfr⟩ := h.or
    have hdl := fun p hp => hd p (List.mem_append_left r.leaves hp)
    have hdr := fun p hp => hd p (List.mem_append_right l.leaves hp)
    have h₁ := hl hfl hdl
    have h₂ := hr hfr hdr
    simp only [value, Expr.eval]
    rw [h₁, h₂, Tri.or_some]
    -- A guard in front can only reject what both arms reject.
    have hguards : ∃ b, guardsVal pkt link 0 (frontGuards mode l r link) = some b := by
      refine Option.ne_none_iff_exists'.mp (guardsVal_defined ?_)
      cases mode with
      | plain => exact fun g hg => absurd hg List.not_mem_nil
      | hoist => exact (required_defined hdl).intersect_left.hoisted
    have himplied : l.eval (fun p => leafVal pkt link p 0 == some true) ||
        r.eval (fun p => leafVal pkt link p 0 == some true) →
        guardsVal pkt link 0 (frontGuards mode l r link) = some true := by
      intro hor
      refine guardsVal_accepts ?_
      cases mode with
      | plain => exact fun g hg => absurd hg List.not_mem_nil
      | hoist =>
        rcases Bool.or_eq_true_iff.mp hor with hb | hb
        · rw [hb] at h₁
          exact (required_accepts hfl h₁).intersect_left.hoisted
        · rw [hb] at h₂
          exact (required_accepts hfr h₂).intersect_right.hoisted
    obtain ⟨b, hb⟩ := hguards
    rw [hb] at himplied ⊢
    rw [Tri.and_some]
    cases b with
    | true => rfl
    | false =>
      cases hor : (l.eval (fun p => leafVal pkt link p 0 == some true) ||
          r.eval (fun p => leafVal pkt link p 0 == some true)) with
      | false => rfl
      | true => exact absurd (himplied hor) (by decide)
  | not e ih =>
    simp only [value, Expr.eval]
    rw [ih h.not hd]
    rfl

end Required

end PktBaffle.Proofs.Classic
