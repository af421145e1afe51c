import PktBaffle.Forward.Code
import PktBaffle.Forward.Tri

namespace PktBaffle.Forward

variable {ι κ σ ε ρ : Type}

/-- A run that leaves a fragment the way outcome `t` says: at its end or through the
success exit in a state of `S`, through the failure exit in a state of `F`, or, for an
abort, by a fault in `E`. -/
def Result.Fits (E : ε → Prop) (S F : σ → Prop) : Tri → Result ε σ ρ → Prop
  | some true, r => ∃ s, S s ∧ (r = .past 0 s ∨ r = .exit .success s)
  | some false, r => ∃ s, F s ∧ r = .exit .failure s
  | none, r => ∃ e, E e ∧ r = .stop e

/-- As `Fits`, but success is only reached by falling off the end. -/
def Result.Falls (E : ε → Prop) (S F : σ → Prop) : Tri → Result ε σ ρ → Prop
  | some true, r => ∃ s, S s ∧ r = .past 0 s
  | some false, r => ∃ s, F s ∧ r = .exit .failure s
  | none, r => ∃ e, E e ∧ r = .stop e

theorem Result.Falls.fits {E : ε → Prop} {S F : σ → Prop} {t : Tri} {r : Result ε σ ρ}
    (h : r.Falls E S F t) : r.Fits E S F t := by
  rcases t with _ | _ | _
  · exact h
  · exact h
  · obtain ⟨s, hs, he⟩ := h
    exact ⟨s, hs, .inl he⟩

theorem Result.Fits.mono {E : ε → Prop} {S T F G : σ → Prop} {t : Tri} {r : Result ε σ ρ}
    (h : r.Fits E S F t) (hs : ∀ s, S s → T s) (hf : ∀ s, F s → G s) : r.Fits E T G t := by
  rcases t with _ | _ | _
  · exact h
  · obtain ⟨s, h, he⟩ := h
    exact ⟨s, hf s h, he⟩
  · obtain ⟨s, h, he⟩ := h
    exact ⟨s, hs s h, he⟩

theorem Result.Falls.mono {E : ε → Prop} {S T F G : σ → Prop} {t : Tri} {r : Result ε σ ρ}
    (h : r.Falls E S F t) (hs : ∀ s, S s → T s) (hf : ∀ s, F s → G s) :
    r.Falls E T G t := by
  rcases t with _ | _ | _
  · exact h
  · obtain ⟨s, h, he⟩ := h
    exact ⟨s, hf s h, he⟩
  · obtain ⟨s, h, he⟩ := h
    exact ⟨s, hs s h, he⟩

/-- Whatever state a run leaves in satisfies `I`. -/
def Result.Leaves (I : σ → Prop) : Result ε σ ρ → Prop
  | .past _ s => I s
  | .exit _ s => I s
  | .halt _ => True
  | .stop _ => True

theorem Result.Fits.leaves {E : ε → Prop} {S F I : σ → Prop} {t : Tri} {r : Result ε σ ρ}
    (h : r.Fits E S F t) (hi : r.Leaves I) :
    r.Fits E (fun s => S s ∧ I s) (fun s => F s ∧ I s) t := by
  rcases t with _ | _ | _
  · exact h
  · obtain ⟨s, h, rfl⟩ := h
    exact ⟨s, ⟨h, hi⟩, rfl⟩
  · obtain ⟨s, h, rfl | rfl⟩ := h
    · exact ⟨s, ⟨h, hi⟩, .inl rfl⟩
    · exact ⟨s, ⟨h, hi⟩, .inr rfl⟩

theorem Result.Falls.leaves {E : ε → Prop} {S F I : σ → Prop} {t : Tri} {r : Result ε σ ρ}
    (h : r.Falls E S F t) (hi : r.Leaves I) :
    r.Falls E (fun s => S s ∧ I s) (fun s => F s ∧ I s) t := by
  rcases t with _ | _ | _
  · exact h
  · obtain ⟨s, h, rfl⟩ := h
    exact ⟨s, ⟨h, hi⟩, rfl⟩
  · obtain ⟨s, h, rfl⟩ := h
    exact ⟨s, ⟨h, hi⟩, rfl⟩

/-- Whoever falls off the end knows that the outcome was to accept. -/
theorem Result.Falls.accepts {E : ε → Prop} {S F : σ → Prop} {t : Tri} {r : Result ε σ ρ}
    (h : r.Falls E S F t) : r.Falls E (fun s => S s ∧ t = some true) F t := by
  rcases t with _ | _ | _
  · exact h
  · exact h
  · obtain ⟨s, h, he⟩ := h
    exact ⟨s, ⟨h, rfl⟩, he⟩

theorem Result.Fits.accepts {E : ε → Prop} {S F : σ → Prop} {t : Tri} {r : Result ε σ ρ}
    (h : r.Fits E S F t) : r.Fits E (fun s => S s ∧ t = some true) F t := by
  rcases t with _ | _ | _
  · exact h
  · exact h
  · obtain ⟨s, h, he⟩ := h
    exact ⟨s, ⟨h, rfl⟩, he⟩

theorem Result.Leaves.and {I J : σ → Prop} {r : Result ε σ ρ} (hi : r.Leaves I) (hj : r.Leaves J) :
    r.Leaves (fun s => I s ∧ J s) := by
  cases r with
  | past n s => exact ⟨hi, hj⟩
  | exit x s => exact ⟨hi, hj⟩
  | halt v => trivial
  | stop e => trivial

theorem Result.Leaves.mono {I J : σ → Prop} {r : Result ε σ ρ} (h : r.Leaves I)
    (hm : ∀ s, I s → J s) : r.Leaves J := by
  cases r with
  | past n s => exact hm s h
  | exit x s => exact hm s h
  | halt v => trivial
  | stop e => trivial

/-- What falls off the end goes on with the code behind. -/
theorem Result.Falls.bind {E : ε → Prop} {S T F : σ → Prop} {t u : Tri} {r : Result ε σ ρ}
    {f : Nat → σ → Result ε σ ρ} (h : r.Falls E S F t)
    (hf : t = some true → ∀ s, S s → (f 0 s).Falls E T F u) : (r.bind f).Falls E T F (t.and u) := by
  rcases t with _ | _ | _
  · obtain ⟨e, he, rfl⟩ := h
    exact ⟨e, he, rfl⟩
  · obtain ⟨s, hs, rfl⟩ := h
    exact ⟨s, hs, rfl⟩
  · obtain ⟨s, hs, rfl⟩ := h
    exact hf rfl s hs

/-- An effect that keeps `I` where it goes on. -/
def Move.Keeps {κ : Type} (I : σ → Prop) : Except ε (Move κ σ ρ) → Prop
  | .ok (.next s) => I s
  | .ok (.jump _ s) => I s
  | _ => True

/-- Invariant rule: what every instruction keeps, every run keeps. -/
theorem Machine.run_leaves {α κ : Type} (M : Machine α κ σ ε ρ) {I : σ → Prop} {is : List α}
    (h : ∀ i ∈ is, ∀ s, I s → Move.Keeps I (M.act i s)) (n : Nat) {s : σ} (hs : I s) :
    (M.run is n s).Leaves I := by
  induction is generalizing n s with
  | nil =>
    rw [Machine.run_nil]
    exact hs
  | cons i is ih =>
    have ih' := fun n {s} => ih (fun j hj => h j (List.mem_cons_of_mem _ hj)) n (s := s)
    cases n with
    | succ n => exact ih' n hs
    | zero =>
      have hk := h i List.mem_cons_self s hs
      rw [Machine.run_cons]
      cases ha : M.act i s with
      | error e => trivial
      | ok m =>
        rw [ha] at hk
        cases m with
        | next s' => exact ih' 0 hk
        | halt r => trivial
        | jump k s' =>
          cases ht : M.tgt i k with
          | skip m => simpa [ht] using ih' m hk
          | exit x =>
            simp only [ht]
            exact hk

/-- The jump slot an unconditional jump leaves through, and that it changes nothing. -/
structure Jumps (M : Machine ι κ σ ε ρ) (ja : ι) (k : κ) : Prop where
  act : ∀ s, M.act ja s = .ok (.jump k s)

variable [DecidableEq κ]

/-- From every state in `P` the fragment leaves as outcome `t` says. -/
def Meets (M : Machine ι κ σ ε ρ) (E : ε → Prop) (c : Frag ι κ) (P : σ → Prop) (t : Tri)
    (S F : σ → Prop) : Prop :=
  ∀ s, P s → (M.cells.run c 0 s).Fits E S F t

/-- `Meets` for code that has no jump to the success exit. -/
def Drops (M : Machine ι κ σ ε ρ) (E : ε → Prop) (c : Frag ι κ) (P : σ → Prop) (t : Tri)
    (S F : σ → Prop) : Prop :=
  ∀ s, P s → (M.cells.run c 0 s).Falls E S F t

section Rules

variable {M : Machine ι κ σ ε ρ} {E : ε → Prop} {c c₁ c₂ : Frag ι κ}
  {P P' S S' F F' Q : σ → Prop} {t t₁ t₂ : Tri}

theorem Drops.meets (h : Drops M E c P t S F) : Meets M E c P t S F :=
  fun s hs => (h s hs).fits

theorem Meets.weaken (h : Meets M E c P t S F) (hp : ∀ s, P' s → P s) (hs : ∀ s, S s → S' s)
    (hf : ∀ s, F s → F' s) : Meets M E c P' t S' F' :=
  fun s h' => (h s (hp s h')).mono hs hf

theorem Drops.weaken (h : Drops M E c P t S F) (hp : ∀ s, P' s → P s) (hs : ∀ s, S s → S' s)
    (hf : ∀ s, F s → F' s) : Drops M E c P' t S' F' :=
  fun s h' => (h s (hp s h')).mono hs hf

/-- Empty code accepts. -/
theorem Drops.nil (h : ∀ s, P s → S s) : Drops M E [] P (some true) S F :=
  fun s hs => ⟨s, h s hs, by simp⟩

/-- Code without success jumps followed by more code. The second part is asked for only
where the first accepts. -/
theorem Drops.append (h₁ : Drops M E c₁ P t₁ Q F)
    (h₂ : t₁ = some true → Meets M E c₂ Q t₂ S F) :
    Meets M E (c₁ ++ c₂) P (t₁.and t₂) S F := by
  intro s hs
  have h := h₁ s hs
  rw [Machine.run_append]
  rcases t₁ with _ | _ | _
  · obtain ⟨e, he, hr⟩ := h
    exact ⟨e, he, by rw [hr]; rfl⟩
  · obtain ⟨s', hs', hr⟩ := h
    exact ⟨s', hs', by rw [hr]; rfl⟩
  · obtain ⟨s', hs', hr⟩ := h
    rw [hr, Result.bind_past]
    exact h₂ rfl s' hs'

theorem Drops.append_drops (h₁ : Drops M E c₁ P t₁ Q F)
    (h₂ : t₁ = some true → Drops M E c₂ Q t S F) :
    Drops M E (c₁ ++ c₂) P (t₁.and t) S F := by
  intro s hs
  have h := h₁ s hs
  rw [Machine.run_append]
  rcases t₁ with _ | _ | _
  · obtain ⟨e, he, hr⟩ := h
    exact ⟨e, he, by rw [hr]; rfl⟩
  · obtain ⟨s', hs', hr⟩ := h
    exact ⟨s', hs', by rw [hr]; rfl⟩
  · obtain ⟨s', hs', hr⟩ := h
    rw [hr, Result.bind_past]
    exact h₂ rfl s' hs'

variable (hx : ∀ i k y, M.tgt i k ≠ .exit y)
include hx

/-- Rule for `and`: the success exits of the left side lead to the right side. -/
theorem Meets.seq (h₁ : Meets M E c₁ P t₁ Q F)
    (h₂ : t₁ = some true → Meets M E c₂ Q t₂ S F) :
    Meets M E (Frag.seq c₁ c₂) P (t₁.and t₂) S F := by
  intro s hs
  have h := h₁ s hs
  rw [Frag.seq, Machine.run_append, M.run_resolve hx]
  rcases t₁ with _ | _ | _
  · obtain ⟨e, he, hr⟩ := h
    exact ⟨e, he, by rw [hr]; rfl⟩
  · obtain ⟨s', hs', hr⟩ := h
    exact ⟨s', hs', by rw [hr]; rfl⟩
  · obtain ⟨s', hs', hr⟩ := h
    have hb : ((M.cells.run c₁ 0 s).redirect .success 0).bind (M.cells.run c₂) =
        M.cells.run c₂ 0 s' := by
      rcases hr with hr | hr <;> rw [hr] <;> rfl
    rw [hb]
    exact h₂ rfl s' hs'

variable {ja : ι} {k : κ} (hj : Jumps M ja k)
include hj

/-- Rule for `or`: the failure exits of the left side lead to the right side, and its end
jumps over it. -/
theorem Meets.alt (h₁ : Meets M E c₁ P t₁ S Q)
    (h₂ : t₁ = some false → Meets M E c₂ Q t₂ S F) :
    Meets M E (Frag.alt (Cell.hole ja k) c₁ c₂) P (t₁.or t₂) S F := by
  intro s hs
  have h := h₁ s hs
  rw [Frag.alt, Machine.run_append, M.run_resolve hx]
  rcases t₁ with _ | _ | _
  · obtain ⟨e, he, hr⟩ := h
    exact ⟨e, he, by rw [hr]; rfl⟩
  · obtain ⟨s', hs', hr⟩ := h
    have hb : ((M.cells.run c₁ 0 s).redirect .failure 1).bind
        (M.cells.run (Cell.hole ja k .success :: c₂)) = M.cells.run c₂ 0 s' := by
      rw [hr]
      rfl
    rw [hb]
    exact h₂ rfl s' hs'
  · obtain ⟨s', hs', hr⟩ := h
    refine ⟨s', hs', .inr ?_⟩
    rcases hr with hr | hr
    · rw [hr]
      exact Machine.run_exit (hj.act s') (by simp)
    · rw [hr]
      rfl

/-- Rule for `not`: failure leads behind the fragment, success and its end to failure. -/
theorem Meets.neg (h : Meets M E c P t S F) :
    Meets M E (Frag.neg (Cell.hole ja k) c) P t.not F S := by
  intro s hs
  have h' := h s hs
  rw [Frag.neg, Machine.run_append, M.run_fold hx, M.run_resolve hx]
  rcases t with _ | _ | _
  · obtain ⟨e, he, hr⟩ := h'
    exact ⟨e, he, by rw [hr]; rfl⟩
  · obtain ⟨s', hs', hr⟩ := h'
    exact ⟨s', hs', .inl (by rw [hr]; rfl)⟩
  · obtain ⟨s', hs', hr⟩ := h'
    refine ⟨s', hs', ?_⟩
    rcases hr with hr | hr
    · rw [hr]
      exact Machine.run_exit (hj.act s') (by simp)
    · rw [hr]
      rfl

end Rules

end PktBaffle.Forward
