import PktBaffle.Forward.Code

namespace PktBaffle.Forward

variable {ι κ : Type}

/-- The positions, counted from `b`, whose slot waits for exit `x`. -/
def Frag.slots (x : Exit) : Nat → Frag ι κ → List (κ × Nat)
  | _, [] => []
  | b, c :: cs =>
    match c.slot with
    | some (k, .exit y) => if y = x then (k, b) :: slots x (b + 1) cs else slots x (b + 1) cs
    | _ => slots x (b + 1) cs

namespace Frag

section
variable (x : Exit) (b : Nat) (i : ι) (k : κ) (cs : Frag ι κ)

@[simp] theorem slots_nil : slots x b ([] : Frag ι κ) = [] := rfl

@[simp] theorem slots_none : slots x b (⟨i, none⟩ :: cs) = slots x (b + 1) cs := rfl

@[simp] theorem slots_skip (n : Nat) :
    slots x b (⟨i, some (k, .skip n)⟩ :: cs) = slots x (b + 1) cs := rfl

@[simp] theorem slots_exit (y : Exit) : slots x b (⟨i, some (k, .exit y)⟩ :: cs) =
    if y = x then (k, b) :: slots x (b + 1) cs else slots x (b + 1) cs := rfl

@[simp] theorem slots_op : slots x b (.op i :: cs) = slots x (b + 1) cs := rfl

@[simp] theorem slots_hole (y : Exit) : slots x b (.hole i k y :: cs) =
    if y = x then (k, b) :: slots x (b + 1) cs else slots x (b + 1) cs := rfl

end

theorem mem_slots {x : Exit} {b : Nat} {l : Frag ι κ} {q : κ × Nat} :
    q ∈ slots x b l ↔
      ∃ j, ∃ h : j < l.length, q.2 = b + j ∧ l[j].slot = some (q.1, .exit x) := by
  induction l generalizing b with
  | nil => simp
  | cons c cs ih =>
    have hcs : q ∈ slots x (b + 1) cs ↔ ∃ j, ∃ h : j + 1 < (c :: cs).length,
        q.2 = b + (j + 1) ∧ ((c :: cs)[j + 1]).slot = some (q.1, .exit x) := by
      rw [ih]
      simp only [List.length_cons, Nat.add_lt_add_iff_right, List.getElem_cons_succ]
      constructor <;> rintro ⟨j, h, he, hs⟩ <;> exact ⟨j, h, by omega, hs⟩
    have hsplit : (∃ j, ∃ h : j < (c :: cs).length, q.2 = b + j ∧
        ((c :: cs)[j]).slot = some (q.1, .exit x)) ↔
        (q.2 = b ∧ c.slot = some (q.1, .exit x)) ∨ q ∈ slots x (b + 1) cs := by
      rw [hcs]
      constructor
      · rintro ⟨j, h, he, hs⟩
        cases j with
        | zero => exact .inl ⟨by simpa using he, by simpa using hs⟩
        | succ j => exact .inr ⟨j, h, he, hs⟩
      · rintro (⟨he, hs⟩ | ⟨j, h, he, hs⟩)
        · exact ⟨0, by simp, by simpa using he, by simpa using hs⟩
        · exact ⟨j + 1, h, he, hs⟩
    rw [hsplit]
    obtain ⟨k, i⟩ := q
    obtain ⟨a, slot⟩ := c
    rcases slot with _ | ⟨k', _ | y⟩
    · simp
    · simp
    · by_cases hy : y = x
      · simp only [slots_exit, hy, if_true, List.mem_cons, Prod.mk.injEq, Option.some.injEq, and_true]
        constructor <;> rintro (⟨rfl, rfl⟩ | h) <;> first | exact .inl ⟨rfl, rfl⟩ | exact .inr h
      · simp [hy]

theorem slots_append (x : Exit) (b : Nat) (l m : Frag ι κ) :
    slots x b (l ++ m) = slots x b l ++ slots x (b + l.length) m := by
  induction l generalizing b with
  | nil => simp
  | cons c cs ih =>
    have hb : b + 1 + cs.length = b + (cs.length + 1) := by omega
    obtain ⟨i, slot⟩ := c
    rcases slot with _ | ⟨k, _ | y⟩
    · simp [ih, hb]
    · simp [ih, hb]
    · by_cases hy : y = x <;> simp [hy, ih, hb]

theorem slots_resolve_self (x : Exit) (d b : Nat) (l : Frag ι κ) :
    slots x b (resolve x d l) = [] := by
  induction l generalizing b with
  | nil => rfl
  | cons c cs ih =>
    obtain ⟨i, slot⟩ := c
    rcases slot with _ | ⟨k, _ | y⟩
    · simp [resolve, Cell.fill, ih]
    · simp [resolve, Cell.fill, ih]
    · by_cases hy : y = x <;> simp [resolve, Cell.fill, hy, ih]

theorem slots_resolve_other {x y : Exit} (hxy : y ≠ x) (d b : Nat) (l : Frag ι κ) :
    slots y b (resolve x d l) = slots y b l := by
  induction l generalizing b with
  | nil => rfl
  | cons c cs ih =>
    obtain ⟨i, slot⟩ := c
    rcases slot with _ | ⟨k, _ | z⟩
    · simp [resolve, Cell.fill, ih]
    · simp [resolve, Cell.fill, ih]
    · by_cases hz : z = x
      · simp [resolve, Cell.fill, hz, ih, Ne.symm hxy]
      · simp [resolve, Cell.fill, hz, ih]

theorem slots_fold_success (b : Nat) (l : Frag ι κ) : slots .success b (fold l) = [] := by
  induction l generalizing b with
  | nil => rfl
  | cons c cs ih =>
    obtain ⟨i, slot⟩ := c
    rcases slot with _ | ⟨k, _ | y⟩ <;> simpa [fold, Cell.fold] using ih (b + 1)

theorem mem_slots_fold_failure {b : Nat} {l : Frag ι κ} {q : κ × Nat} :
    q ∈ slots .failure b (fold l) ↔ q ∈ slots .success b l ∨ q ∈ slots .failure b l := by
  induction l generalizing b with
  | nil => simp [fold]
  | cons c cs ih =>
    have ih' := @ih (b + 1)
    simp only [fold] at ih'
    obtain ⟨i, slot⟩ := c
    rcases slot with _ | ⟨k, _ | y⟩
    · simpa [fold, Cell.fold] using ih'
    · simpa [fold, Cell.fold] using ih'
    · cases y <;> simp [fold, Cell.fold, ih', or_assoc, or_left_comm]

end Frag

/-- Fill the listed slots with the displacement to position `t`. -/
def patchAll (put : ι → κ → Nat → ι) (ps : List (κ × Nat)) (t : Nat) (l : List ι) : List ι :=
  ps.foldl (fun l q => l.modify q.2 (fun i => put i q.1 (t - q.2 - 1))) l

section Patch

variable (put : ι → κ → Nat → ι)

theorem patchAll_length (ps : List (κ × Nat)) (t : Nat) (l : List ι) :
    (patchAll put ps t l).length = l.length := by
  induction ps generalizing l with
  | nil => rfl
  | cons q ps ih => simpa [patchAll] using ih (l.modify q.2 _)

theorem patchAll_get_other (ps : List (κ × Nat)) (t : Nat) (l : List ι) (j : Nat)
    (h : ∀ k, (k, j) ∉ ps) : (patchAll put ps t l)[j]? = l[j]? := by
  induction ps generalizing l with
  | nil => rfl
  | cons q ps ih =>
    have hq : q.2 ≠ j := by
      rintro rfl
      exact h q.1 List.mem_cons_self
    have hps : ∀ k, (k, j) ∉ ps := fun k hk => h k (List.mem_cons_of_mem _ hk)
    have he := ih (l.modify q.2 (fun i => put i q.1 (t - q.2 - 1))) hps
    simp only [patchAll, List.foldl_cons] at he ⊢
    rw [he, List.getElem?_modify]
    simp [hq]

variable (hput : ∀ i k n, put (put i k n) k n = put i k n)
include hput

theorem patchAll_get_stable (ps : List (κ × Nat)) (t : Nat) (l : List ι) (j : Nat) (k : κ) (i : ι)
    (h : ∀ k', (k', j) ∈ ps → k' = k) (hl : l[j]? = some (put i k (t - j - 1))) :
    (patchAll put ps t l)[j]? = some (put i k (t - j - 1)) := by
  induction ps generalizing l with
  | nil => exact hl
  | cons q ps ih =>
    refine ih _ (fun k' hk => h k' (List.mem_cons_of_mem _ hk)) ?_
    rw [List.getElem?_modify]
    by_cases hq : q.2 = j
    · have hk : q.1 = k := h q.1 (by rw [← hq]; exact List.mem_cons_self)
      simp [hq, hl, hk, hput]
    · simp [hq, hl]

/-- A slot that is on the list is filled, however often it is listed. -/
theorem patchAll_get (ps : List (κ × Nat)) (t : Nat) (l : List ι) (j : Nat) (k : κ) (i : ι)
    (hk : (k, j) ∈ ps) (h : ∀ k', (k', j) ∈ ps → k' = k) (hl : l[j]? = some i) :
    (patchAll put ps t l)[j]? = some (put i k (t - j - 1)) := by
  induction ps generalizing l with
  | nil => simp at hk
  | cons q ps ih =>
    have hps : ∀ k', (k', j) ∈ ps → k' = k := fun k' hk' => h k' (List.mem_cons_of_mem _ hk')
    by_cases hq : q.2 = j
    · have hqk : q.1 = k := h q.1 (by rw [← hq]; exact List.mem_cons_self)
      refine patchAll_get_stable put hput ps t _ j k i hps ?_
      rw [List.getElem?_modify]
      simp [hq, hl, hqk]
    · refine ih _ ?_ hps ?_
      · rcases List.mem_cons.mp hk with he | hm
        · exact absurd (congrArg Prod.snd he).symm hq
        · exact hm
      · rw [List.getElem?_modify]
        simp [hq, hl]

/-- Patching the slots a fragment leaves through `x` is resolving `x`. -/
theorem patchAll_resolve (x : Exit) (d : Nat) (pre post : List ι) (l : Frag ι κ)
    (ps : List (κ × Nat)) (hps : ∀ q, q ∈ ps ↔ q ∈ Frag.slots x pre.length l) :
    patchAll put ps (pre.length + l.length + d) (pre ++ l.map (Cell.raw put) ++ post) =
      pre ++ (Frag.resolve x d l).map (Cell.raw put) ++ post := by
  apply List.ext_getElem?
  intro j
  have hmem : ∀ k, (k, j) ∈ ps ↔ ∃ i, ∃ h : i < l.length, j = pre.length + i ∧
      l[i].slot = some (k, .exit x) := fun k => by rw [hps, Frag.mem_slots]
  by_cases hj : pre.length ≤ j ∧ j < pre.length + l.length
  · obtain ⟨i, rfl⟩ : ∃ i, j = pre.length + i := ⟨j - pre.length, by omega⟩
    have hi : i < l.length := by omega
    have hold : (pre ++ l.map (Cell.raw put) ++ post)[pre.length + i]? =
        some (l[i].raw put) := by
      rw [List.append_assoc, List.getElem?_append_right (by omega)]
      simp [List.getElem?_append, hi]
    have hnew : (pre ++ (Frag.resolve x d l).map (Cell.raw put) ++ post)[pre.length + i]? =
        some ((l[i].fill x (l.length - i - 1 + d)).raw put) := by
      rw [List.append_assoc, List.getElem?_append_right (by omega)]
      rw [List.getElem?_append_left (by simpa using hi)]
      simp [Frag.resolve_get x d l i hi]
    rw [hnew]
    have hdist : pre.length + l.length + d - (pre.length + i) - 1 = l.length - i - 1 + d := by
      omega
    have hslot : ∀ k, (k, pre.length + i) ∈ ps ↔ l[i].slot = some (k, .exit x) := by
      intro k
      rw [hmem]
      constructor
      · rintro ⟨i', h', he, hs⟩
        have : i' = i := by omega
        subst this
        exact hs
      · exact fun hs => ⟨i, hi, rfl, hs⟩
    by_cases hs : ∃ k, l[i].slot = some (k, .exit x)
    · obtain ⟨k, hs⟩ := hs
      rw [patchAll_get put hput ps _ _ _ k (l[i].raw put) ((hslot k).mpr hs) ?_ hold]
      · simp [Cell.raw, Cell.fill, hs, hdist]
      · intro k' hk'
        have := (hslot k').mp hk'
        rw [hs] at this
        simp_all
    · have hno : ∀ k, (k, pre.length + i) ∉ ps := fun k hk => hs ⟨k, (hslot k).mp hk⟩
      rw [patchAll_get_other put ps _ _ _ hno, hold]
      have hfill : l[i].fill x (l.length - i - 1 + d) = l[i] := by
        unfold Cell.fill
        split
        · rename_i k y hk
          have : y ≠ x := by
            rintro rfl
            exact hs ⟨k, hk⟩
          simp [this]
        · rfl
      rw [hfill]
  · have hno : ∀ k, (k, j) ∉ ps := by
      intro k hk
      obtain ⟨i, hi, rfl, _⟩ := (hmem k).mp hk
      omega
    rw [patchAll_get_other put ps _ _ _ hno]
    rcases Nat.lt_or_ge j pre.length with hlt | hge
    · simp [List.append_assoc, List.getElem?_append_left hlt]
    · have hge' : pre.length + l.length ≤ j := by omega
      rw [List.getElem?_append_right (by simpa using hge'),
        List.getElem?_append_right (by simpa using hge')]
      simp

end Patch

/-- `post` is `pre` with the code of fragment `c` behind it, and the two lists name
exactly the slots that still wait for an exit of `c`. -/
structure Placed (put : ι → κ → Nat → ι) (pre post : List ι) (succ fail : List (κ × Nat))
    (c : Frag ι κ) : Prop where
  code : post = pre ++ c.map (Cell.raw put)
  success : ∀ q, q ∈ succ ↔ q ∈ Frag.slots .success pre.length c
  failure : ∀ q, q ∈ fail ↔ q ∈ Frag.slots .failure pre.length c

namespace Placed

variable {put : ι → κ → Nat → ι} {pre mid post : List ι} {s s₁ s₂ f f₁ f₂ : List (κ × Nat)}
  {c c₁ c₂ : Frag ι κ}

theorem length (h : Placed put pre post s f c) : post.length = pre.length + c.length := by
  rw [h.code]
  simp

theorem nil : Placed put pre pre [] [] [] := ⟨by simp, by simp, by simp⟩

theorem op (i : ι) : Placed put pre (pre ++ [i]) [] [] [.op i] :=
  ⟨by simp [Cell.raw], by simp, by simp⟩

theorem hole_success (i : ι) (k : κ) :
    Placed put pre (pre ++ [i]) [(k, pre.length)] [] [.hole i k .success] :=
  ⟨by simp [Cell.raw], by simp, by simp⟩

theorem hole_failure (i : ι) (k : κ) :
    Placed put pre (pre ++ [i]) [] [(k, pre.length)] [.hole i k .failure] :=
  ⟨by simp [Cell.raw], by simp, by simp⟩

/-- Only the members of the two lists matter. -/
theorem congr {s' f' : List (κ × Nat)} (h : Placed put pre post s f c)
    (hs : ∀ q, q ∈ s' ↔ q ∈ s) (hf : ∀ q, q ∈ f' ↔ q ∈ f) : Placed put pre post s' f' c :=
  ⟨h.code, fun q => (hs q).trans (h.success q), fun q => (hf q).trans (h.failure q)⟩

theorem append (h₁ : Placed put pre mid s₁ f₁ c₁) (h₂ : Placed put mid post s₂ f₂ c₂) :
    Placed put pre post (s₁ ++ s₂) (f₁ ++ f₂) (c₁ ++ c₂) := by
  refine ⟨by rw [h₂.code, h₁.code]; simp, ?_, ?_⟩
  · intro q
    rw [List.mem_append, h₁.success, h₂.success, h₁.length, Frag.slots_append, List.mem_append]
  · intro q
    rw [List.mem_append, h₁.failure, h₂.failure, h₁.length, Frag.slots_append, List.mem_append]

variable (hput : ∀ i k n, put (put i k n) k n = put i k n)
include hput

/-- Conjunction: the success slots of the left code are patched to where the right code
starts. -/
theorem seq (h₁ : Placed put pre mid s₁ f₁ c₁)
    (h₂ : Placed put (patchAll put s₁ mid.length mid) post s₂ f₂ c₂) :
    Placed put pre post s₂ (f₁ ++ f₂) (Frag.seq c₁ c₂) := by
  have hp := patchAll_resolve put hput .success 0 pre [] c₁ s₁ h₁.success
  simp only [Nat.add_zero, List.append_nil, ← h₁.length, ← h₁.code] at hp
  have hl : (patchAll put s₁ mid.length mid).length = pre.length + c₁.length := by
    rw [patchAll_length, h₁.length]
  refine ⟨by rw [h₂.code, hp]; simp [Frag.seq], ?_, ?_⟩
  · intro q
    rw [h₂.success, hl, Frag.seq, Frag.slots_append, Frag.slots_resolve_self]
    simp
  · intro q
    rw [List.mem_append, h₁.failure, h₂.failure, hl, Frag.seq, Frag.slots_append,
      Frag.slots_resolve_other (by decide)]
    simp

/-- Disjunction: behind the left code stands a jump, and the failure slots of the left
code are patched to the instruction after it. -/
theorem alt {ja : ι} {k : κ} (h₁ : Placed put pre mid s₁ f₁ c₁)
    (h₂ : Placed put (patchAll put f₁ (mid.length + 1) (mid ++ [ja])) post s₂ f₂ c₂) :
    Placed put pre post (s₁ ++ (k, mid.length) :: s₂) f₂ (Frag.alt (Cell.hole ja k) c₁ c₂) := by
  have hp := patchAll_resolve put hput .failure 1 pre [ja] c₁ f₁ h₁.failure
  rw [← h₁.length, ← h₁.code] at hp
  have hl : (patchAll put f₁ (mid.length + 1) (mid ++ [ja])).length =
      pre.length + c₁.length + 1 := by
    rw [patchAll_length]
    simp [h₁.length]
  refine ⟨by rw [h₂.code, hp]; simp [Frag.alt, Cell.raw], ?_, ?_⟩
  · intro q
    rw [List.mem_append, List.mem_cons, h₁.success, h₂.success, hl, h₁.length, Frag.alt,
      Frag.slots_append, Frag.slots_resolve_other (by decide)]
    simp
  · intro q
    rw [h₂.failure, hl, Frag.alt, Frag.slots_append, Frag.slots_resolve_self]
    simp

/-- Negation: the failure slots are patched to the end behind the jump, the success slots
and the jump itself fail. -/
theorem neg {j : ι} {k : κ} (h₁ : Placed put pre mid s₁ f₁ c₁) :
    Placed put pre (patchAll put f₁ (mid.length + 1) (mid ++ [j])) [] (s₁ ++ [(k, mid.length)])
      (Frag.neg (Cell.hole j k) c₁) := by
  have hp := patchAll_resolve put hput .failure 1 pre [j] c₁ f₁ h₁.failure
  rw [← h₁.length, ← h₁.code] at hp
  have hraw : ∀ c : Cell ι κ, c.fold.raw put = c.raw put := by
    rintro ⟨i, _ | ⟨k, _ | x⟩⟩ <;> rfl
  have hfold : (Frag.fold (Frag.resolve .failure 1 c₁)).map (Cell.raw put) =
      (Frag.resolve .failure 1 c₁).map (Cell.raw put) := by
    simp [Frag.fold, hraw]
  refine ⟨by rw [hp, Frag.neg, List.map_append, hfold]; simp [Cell.raw], ?_, ?_⟩
  · intro q
    rw [Frag.neg, Frag.slots_append, Frag.slots_fold_success]
    simp
  · intro q
    rw [List.mem_append, h₁.success, Frag.neg, Frag.slots_append, List.mem_append,
      Frag.mem_slots_fold_failure, Frag.slots_resolve_self,
      Frag.slots_resolve_other (by decide)]
    simp [Frag.fold, h₁.length]

end Placed

end PktBaffle.Forward
