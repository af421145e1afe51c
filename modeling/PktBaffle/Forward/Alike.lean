import PktBaffle.Forward.Triple

namespace PktBaffle.Forward

variable {ι κ σ ε ρ : Type}

/-- A run that accepts in state `s`: at the end of the fragment or through the success exit. -/
def Result.Accepts (s : σ) (r : Result ε σ ρ) : Prop := r = .past 0 s ∨ r = .exit .success s

/-- Two runs that accept together in states related by `S`, reject together in states related
by `F`, or stop with one fault of `E`. -/
inductive Result.Alike (E : ε → Prop) (S F : σ → σ → Prop) :
    Result ε σ ρ → Result ε σ ρ → Prop where
  | accept {r r' : Result ε σ ρ} {s s' : σ} (hr : r.Accepts s) (hr' : r'.Accepts s')
      (h : S s s') : Alike E S F r r'
  | reject {s s' : σ} (h : F s s') : Alike E S F (.exit .failure s) (.exit .failure s')
  | stop {e : ε} (h : E e) : Alike E S F (.stop e) (.stop e)

section Results

variable {E : ε → Prop} {S S' F F' : σ → σ → Prop} {T T' G G' : σ → Prop} {r r' : Result ε σ ρ}
  {t : Tri}

theorem Result.Alike.mono (h : r.Alike E S F r') (hs : ∀ s s', S s s' → S' s s')
    (hf : ∀ s s', F s s' → F' s s') : r.Alike E S' F' r' := by
  cases h with
  | accept hr hr' h => exact .accept hr hr' (hs _ _ h)
  | reject h => exact .reject (hf _ _ h)
  | stop h => exact .stop h

theorem Result.Accepts.leaves {I : σ → Prop} {s : σ} (h : r.Accepts s) (hi : r.Leaves I) : I s := by
  rcases h with rfl | rfl
  · exact hi
  · exact hi

/-- What either run keeps by itself. -/
theorem Result.Alike.leaves {I I' : σ → Prop} (h : r.Alike E S F r') (hi : r.Leaves I)
    (hi' : r'.Leaves I') :
    r.Alike E (fun s s' => S s s' ∧ I s ∧ I' s') (fun s s' => F s s' ∧ I s ∧ I' s') r' := by
  cases h with
  | accept hr hr' h => exact .accept hr hr' ⟨h, hr.leaves hi, hr'.leaves hi'⟩
  | reject h => exact .reject ⟨h, hi, hi'⟩
  | stop h => exact .stop h

/-- Two runs with one outcome, aborts with one fault, are alike. -/
theorem Result.Fits.alike {e : ε} (h : r.Fits (· = e) T G t) (h' : r'.Fits (· = e) T' G' t) :
    r.Alike (· = e) (fun s s' => T s ∧ T' s') (fun s s' => G s ∧ G' s') r' := by
  rcases t with _ | _ | _
  · obtain ⟨_, rfl, rfl⟩ := h
    obtain ⟨_, rfl, rfl⟩ := h'
    exact .stop rfl
  · obtain ⟨s, hs, rfl⟩ := h
    obtain ⟨s', hs', rfl⟩ := h'
    exact .reject ⟨hs, hs'⟩
  · obtain ⟨s, hs, hr⟩ := h
    obtain ⟨s', hs', hr'⟩ := h'
    exact .accept hr hr' ⟨hs, hs'⟩

theorem Result.Alike.fits {e : ε} (h : r.Alike (· = e) S F r') :
    ∃ t, r.Fits (· = e) (fun _ => True) (fun _ => True) t ∧
      r'.Fits (· = e) (fun _ => True) (fun _ => True) t := by
  cases h with
  | accept hr hr' h => exact ⟨some true, ⟨_, trivial, hr⟩, ⟨_, trivial, hr'⟩⟩
  | reject h => exact ⟨some false, ⟨_, trivial, rfl⟩, ⟨_, trivial, rfl⟩⟩
  | stop h => exact ⟨none, ⟨_, h, rfl⟩, ⟨_, h, rfl⟩⟩

end Results

variable [DecidableEq κ]

/-- From states related by `P` the fragment runs alike. -/
def Alike (M : Machine ι κ σ ε ρ) (E : ε → Prop) (c : Frag ι κ) (P S F : σ → σ → Prop) : Prop :=
  ∀ s s', P s s' → (M.cells.run c 0 s).Alike E S F (M.cells.run c 0 s')

section Rules

variable {M : Machine ι κ σ ε ρ} {E : ε → Prop} {c d : Frag ι κ}
  {P P' Q S S' F F' : σ → σ → Prop} {ja : ι} {k : κ} (hx : ∀ i k y, M.tgt i k ≠ .exit y)
include hx

/-- The right side begins where the left one accepts. -/
theorem Alike.seq (hc : Alike M E c P Q F) (hd : Alike M E d Q S F) :
    Alike M E (Frag.seq c d) P S F := by
  have right : ∀ s t, (M.cells.run c 0 s).Accepts t →
      M.cells.run (Frag.seq c d) 0 s = M.cells.run d 0 t := by
    intro s t h
    rw [Frag.seq, Machine.run_append, M.run_resolve hx]
    rcases h with h | h <;> rw [h] <;> rfl
  intro s s' hp
  have h := hc s s' hp
  generalize hr : M.cells.run c 0 s = r at h
  generalize hr' : M.cells.run c 0 s' = r' at h
  cases h with
  | accept ha ha' hq =>
    rw [right s _ (hr ▸ ha), right s' _ (hr' ▸ ha')]
    exact hd _ _ hq
  | reject hf =>
    rw [Frag.seq, Machine.run_append, Machine.run_append, M.run_resolve hx, M.run_resolve hx, hr,
      hr']
    exact .reject hf
  | stop he =>
    rw [Frag.seq, Machine.run_append, Machine.run_append, M.run_resolve hx, M.run_resolve hx, hr,
      hr']
    exact .stop he

variable (hj : Jumps M ja k)
include hj

/-- The right side begins where the left one rejects. -/
theorem Alike.alt (hc : Alike M E c P S Q) (hd : Alike M E d Q S F) :
    Alike M E (Frag.alt (Cell.hole ja k) c d) P S F := by
  have left : ∀ s t, (M.cells.run c 0 s).Accepts t →
      M.cells.run (Frag.alt (Cell.hole ja k) c d) 0 s = .exit .success t := by
    intro s t h
    rw [Frag.alt, Machine.run_append, M.run_resolve hx]
    rcases h with h | h
    · rw [h]
      exact Machine.run_exit (hj.act t) (by simp)
    · rw [h]
      rfl
  intro s s' hp
  have h := hc s s' hp
  generalize hr : M.cells.run c 0 s = r at h
  generalize hr' : M.cells.run c 0 s' = r' at h
  cases h with
  | accept ha ha' hs =>
    exact .accept (.inr (left s _ (hr ▸ ha))) (.inr (left s' _ (hr' ▸ ha'))) hs
  | reject hq =>
    rw [Frag.alt, Machine.run_append, Machine.run_append, M.run_resolve hx, M.run_resolve hx, hr,
      hr']
    exact hd _ _ hq
  | stop he =>
    rw [Frag.alt, Machine.run_append, Machine.run_append, M.run_resolve hx, M.run_resolve hx, hr,
      hr']
    exact .stop he

/-- Success and failure exchanged. -/
theorem Alike.neg (hc : Alike M E c P S F) : Alike M E (Frag.neg (Cell.hole ja k) c) P F S := by
  have out : ∀ s t, (M.cells.run c 0 s).Accepts t →
      M.cells.run (Frag.neg (Cell.hole ja k) c) 0 s = .exit .failure t := by
    intro s t h
    rw [Frag.neg, Machine.run_append, M.run_fold hx, M.run_resolve hx]
    rcases h with h | h
    · rw [h]
      exact Machine.run_exit (hj.act t) (by simp)
    · rw [h]
      rfl
  intro s s' hp
  have h := hc s s' hp
  generalize hr : M.cells.run c 0 s = r at h
  generalize hr' : M.cells.run c 0 s' = r' at h
  cases h with
  | accept ha ha' hs =>
    rw [out s _ (hr ▸ ha), out s' _ (hr' ▸ ha')]
    exact .reject hs
  | reject hf =>
    rw [Frag.neg, Machine.run_append, Machine.run_append, M.run_fold hx, M.run_fold hx,
      M.run_resolve hx, M.run_resolve hx, hr, hr']
    exact .accept (.inl rfl) (.inl rfl) hf
  | stop he =>
    rw [Frag.neg, Machine.run_append, Machine.run_append, M.run_fold hx, M.run_fold hx,
      M.run_resolve hx, M.run_resolve hx, hr, hr']
    exact .stop he

end Rules

end PktBaffle.Forward
