import PktBaffle.Forward.Patch

namespace PktBaffle.Forward

variable {ι κ : Type}

namespace Frag

/-- Every filled slot skips at most `w` instructions. -/
def Within (w : Nat) (c : Frag ι κ) : Prop := ∀ a ∈ c, ∀ k n, a.slot = some (k, .skip n) → n ≤ w

/-- Every filled slot leads into the fragment or to its end. -/
def Closed : Frag ι κ → Prop
  | [] => True
  | a :: c => (∀ k n, a.slot = some (k, .skip n) → n ≤ c.length) ∧ Closed c

end Frag

/-- A property of cells that does not look at where a slot leads. -/
structure Blind (P : Cell ι κ → Prop) : Prop where
  fill : ∀ a x n, P a → P (Cell.fill x n a)
  fold : ∀ a, P a → P (Cell.fold a)

section Fill

variable {a : Cell ι κ} {x : Exit} {k : κ} {m n : Nat}

theorem Cell.fill_skip (h : (a.fill x m).slot = some (k, .skip n)) :
    a.slot = some (k, .skip n) ∨ (a.slot = some (k, .exit x) ∧ n = m) := by
  obtain ⟨i, _ | ⟨j, t | y⟩⟩ := a
  · exact .inl h
  · exact .inl h
  · by_cases hy : y = x
    · subst hy
      simp only [Cell.fill, if_true, Option.some.injEq, Prod.mk.injEq, Target.skip.injEq] at h
      obtain ⟨rfl, rfl⟩ := h
      exact .inr ⟨rfl, rfl⟩
    · simp [Cell.fill, hy] at h

theorem Cell.fold_skip (h : a.fold.slot = some (k, .skip n)) : a.slot = some (k, .skip n) := by
  obtain ⟨i, _ | ⟨j, t | y⟩⟩ := a
  · exact h
  · exact h
  · simp [Cell.fold] at h

theorem Cell.fill_none : (a.fill x m).slot = none ↔ a.slot = none := by
  obtain ⟨i, _ | ⟨j, t | y⟩⟩ := a
  · rfl
  · rfl
  · by_cases hy : y = x <;> simp [Cell.fill, hy]

theorem Cell.fold_none : a.fold.slot = none ↔ a.slot = none := by
  obtain ⟨i, _ | ⟨j, t | y⟩⟩ := a
  · rfl
  · rfl
  · simp [Cell.fold]

end Fill

section Exits

variable {c : Frag ι κ} {x : Exit} {d : Nat} {a : Cell ι κ}

/-- A resolved exit is gone. -/
theorem Frag.resolve_no_exit (ha : a ∈ Frag.resolve x d c) (k : κ) :
    a.slot ≠ some (k, .exit x) := by
  obtain ⟨⟨i, _ | ⟨j, t | y⟩⟩, -, n, -, rfl⟩ := Frag.mem_resolve ha
  · simp [Cell.fill]
  · simp [Cell.fill]
  · by_cases hy : y = x <;> simp [Cell.fill, hy]

theorem Frag.resolve_keeps_no_exit {y : Exit} (h : ∀ a ∈ c, ∀ k, a.slot ≠ some (k, .exit y))
    (ha : a ∈ Frag.resolve x d c) (k : κ) : a.slot ≠ some (k, .exit y) := by
  obtain ⟨b, hb, n, -, rfl⟩ := Frag.mem_resolve ha
  have hby := h b hb
  obtain ⟨i, _ | ⟨j, t | z⟩⟩ := b
  · simp [Cell.fill]
  · simp [Cell.fill]
  · by_cases hz : z = x
    · simp [Cell.fill, hz]
    · simp only [Cell.fill, hz, if_false]
      exact hby k

end Exits

section Blind

variable {P : Cell ι κ → Prop} (hP : Blind P) {c c₁ c₂ : Frag ι κ}
include hP

theorem Blind.resolve (h : ∀ a ∈ c, P a) (x : Exit) (d : Nat) : ∀ a ∈ Frag.resolve x d c, P a := by
  intro a ha
  obtain ⟨b, hb, n, -, rfl⟩ := Frag.mem_resolve ha
  exact hP.fill b x n (h b hb)

theorem Blind.seq (h₁ : ∀ a ∈ c₁, P a) (h₂ : ∀ a ∈ c₂, P a) : ∀ a ∈ Frag.seq c₁ c₂, P a := by
  intro a ha
  rcases List.mem_append.mp ha with ha | ha
  · exact hP.resolve h₁ _ _ a ha
  · exact h₂ a ha

theorem Blind.alt {ja : Exit → Cell ι κ} (hj : ∀ x, P (ja x)) (h₁ : ∀ a ∈ c₁, P a)
    (h₂ : ∀ a ∈ c₂, P a) : ∀ a ∈ Frag.alt ja c₁ c₂, P a := by
  intro a ha
  rcases List.mem_append.mp ha with ha | ha
  · exact hP.resolve h₁ _ _ a ha
  · rcases List.mem_cons.mp ha with rfl | ha
    · exact hj _
    · exact h₂ a ha

theorem Blind.neg {ja : Exit → Cell ι κ} (hj : ∀ x, P (ja x)) (h : ∀ a ∈ c, P a) :
    ∀ a ∈ Frag.neg ja c, P a := by
  intro a ha
  rcases List.mem_append.mp ha with ha | ha
  · obtain ⟨b, hb, rfl⟩ := List.mem_map.mp ha
    exact hP.fold b (hP.resolve h _ _ b hb)
  · rw [List.mem_singleton.mp ha]
    exact hj _

end Blind

namespace Frag

section Within

variable {w : Nat} {c c₁ c₂ : Frag ι κ}

theorem within_nil : Within w ([] : Frag ι κ) := by
  intro a ha
  cases ha

theorem Within.append (h₁ : Within w c₁) (h₂ : Within w c₂) : Within w (c₁ ++ c₂) := by
  intro a ha
  rcases List.mem_append.mp ha with ha | ha
  · exact h₁ a ha
  · exact h₂ a ha

theorem Within.cons {a : Cell ι κ} (ha : ∀ k n, a.slot = some (k, .skip n) → n ≤ w)
    (h : Within w c) : Within w (a :: c) := by
  intro b hb
  rcases List.mem_cons.mp hb with rfl | hb
  · exact ha
  · exact h b hb

/-- Resolving keeps the bound if every slot it fills reaches its target. -/
theorem Within.resolve (h : Within w c) {x : Exit} {d b : Nat}
    (hs : ∀ q ∈ slots x b c, b + c.length + d - q.2 - 1 ≤ w) : Within w (resolve x d c) := by
  induction c generalizing b with
  | nil => exact within_nil
  | cons a c ih =>
    have htail : Within w (Frag.resolve x d c) := by
      refine ih (b := b + 1) (fun a' ha' => h a' (List.mem_cons_of_mem _ ha')) (fun q hq => ?_)
      have hq' := hs q (by
        rw [← List.singleton_append, slots_append]
        exact List.mem_append_right _ hq)
      simp only [List.length_cons] at hq'
      omega
    refine htail.cons (fun k n hn => ?_)
    rcases Cell.fill_skip hn with hn | ⟨hx, rfl⟩
    · exact h a List.mem_cons_self k n hn
    · have hq := hs (k, b) (mem_slots.mpr ⟨0, by simp, by simp, hx⟩)
      simp only [List.length_cons] at hq
      omega

theorem Within.fold (h : Within w c) : Within w (fold c) := by
  intro a ha k n hn
  obtain ⟨b, hb, rfl⟩ := List.mem_map.mp ha
  exact h b hb k n (Cell.fold_skip hn)

/-- A short fragment reaches whatever stands just behind it. -/
theorem Within.resolve_short (h : Within w c) (x : Exit) {d : Nat} (hl : c.length + d ≤ w + 1) :
    Within w (Frag.resolve x d c) := by
  refine h.resolve (b := 0) (fun q hq => ?_)
  obtain ⟨j, hj, he, -⟩ := mem_slots.mp hq
  omega

end Within

section Closed

variable {l c₁ c₂ : Frag ι κ}

theorem Closed.append (h₁ : Closed c₁) (h₂ : Closed c₂) : Closed (c₁ ++ c₂) := by
  induction c₁ with
  | nil => exact h₂
  | cons a c ih =>
    refine ⟨fun k n hn => ?_, ih h₁.2⟩
    have hle := h₁.1 k n hn
    show n ≤ (c ++ c₂).length
    rw [List.length_append]
    omega

/-- An exit may lead into the code that follows. -/
theorem Closed.resolve_append (h₁ : Closed c₁) (h₂ : Closed c₂) (x : Exit) {d : Nat}
    (hd : d ≤ c₂.length) : Closed (resolve x d c₁ ++ c₂) := by
  induction c₁ with
  | nil => exact h₂
  | cons a c ih =>
    refine ⟨fun k n hn => ?_, ih h₁.2⟩
    show n ≤ (Frag.resolve x d c ++ c₂).length
    rw [List.length_append, resolve_length]
    rcases Cell.fill_skip hn with hn | ⟨-, rfl⟩
    · have := h₁.1 k n hn
      omega
    · omega

theorem Closed.seq (h₁ : Closed c₁) (h₂ : Closed c₂) : Closed (seq c₁ c₂) :=
  h₁.resolve_append h₂ .success (Nat.zero_le _)

theorem closed_single {a : Cell ι κ} (h : ∀ k n, a.slot ≠ some (k, .skip n)) : Closed [a] :=
  ⟨fun k n hn => absurd hn (h k n), trivial⟩

theorem Closed.alt {ja : Exit → Cell ι κ} (hj : ∀ k n, (ja .success).slot ≠ some (k, .skip n))
    (h₁ : Closed c₁) (h₂ : Closed c₂) : Closed (alt ja c₁ c₂) :=
  h₁.resolve_append ((closed_single hj).append h₂) .failure (by simp)

theorem fold_length (c : Frag ι κ) : (Frag.fold c).length = c.length := List.length_map ..

theorem closed_fold_append (h : Closed (c₁ ++ c₂)) : Closed (Frag.fold c₁ ++ c₂) := by
  induction c₁ with
  | nil => exact h
  | cons a c ih =>
    refine ⟨fun k n hn => ?_, ih h.2⟩
    have := h.1 k n (Cell.fold_skip hn)
    simpa using this

theorem Closed.neg {ja : Exit → Cell ι κ} (hj : ∀ k n, (ja .failure).slot ≠ some (k, .skip n))
    (h : Closed l) : Closed (neg ja l) :=
  closed_fold_append (h.resolve_append (closed_single hj) .failure (by simp))

/-- A short closed fragment has short jumps. -/
theorem Closed.within (h : Closed l) {w : Nat} (hl : l.length ≤ w + 1) : Within w l := by
  induction l with
  | nil => exact within_nil
  | cons a c ih =>
    simp only [List.length_cons] at hl
    refine (ih h.2 (by omega)).cons (fun k n hn => ?_)
    have hle := h.1 k n hn
    omega

/-- Position by position. -/
theorem Closed.get (h : Closed l) {j : Nat} {a : Cell ι κ} (ha : l[j]? = some a) {k : κ} {n : Nat}
    (hn : a.slot = some (k, .skip n)) : j + 1 + n ≤ l.length := by
  induction l generalizing j with
  | nil => simp at ha
  | cons b c ih =>
    cases j with
    | zero =>
      simp only [List.getElem?_cons_zero, Option.some.injEq] at ha
      subst ha
      have := h.1 k n hn
      simp only [List.length_cons]
      omega
    | succ j =>
      have := ih h.2 (by simpa using ha)
      simp only [List.length_cons]
      omega

end Closed

end Frag

end PktBaffle.Forward
