import PktBaffle.Forward.Branch

namespace PktBaffle.Forward

variable {ι κ : Type}

namespace Frag

/-- The points of a fragment that control can come to: the first instruction, what follows an
instruction that goes `on`, and where a filled slot leads. -/
inductive Reaches (on : ι → Bool) (p : Frag ι κ) : Nat → Prop where
  | entry : Reaches on p 0
  | next {n : Nat} {a : Cell ι κ} (h : Reaches on p n) (ha : p[n]? = some a)
    (ho : on a.insn = true) : Reaches on p (n + 1)
  | jump {n j : Nat} {k : κ} {a : Cell ι κ} (h : Reaches on p n) (ha : p[n]? = some a)
    (hs : a.slot = some (k, .skip j)) : Reaches on p (n + 1 + j)

/-- Control can come to every instruction of the fragment and to its end. -/
def Live (on : ι → Bool) (p : Frag ι κ) : Prop := ∀ n ≤ p.length, Reaches on p n

/-- There is a way out through failure. -/
def Fails (p : Frag ι κ) : Prop := ∃ a ∈ p, ∃ k, a.slot = some (k, .exit .failure)

/-- The fragment has no dead code, and it can succeed as well as fail. -/
structure Open (on : ι → Bool) (p : Frag ι κ) : Prop where
  live : Live on p
  fails : Fails p

variable {on : ι → Bool} {p q l r : Frag ι κ} {i ja : ι} {k : κ} {m n : Nat}

section Reaches

/-- Where a fragment stands in front, its points are reached as before. -/
theorem Reaches.append_left (h : Reaches on p n) (q : Frag ι κ) : Reaches on (p ++ q) n := by
  have get : ∀ {n : Nat} {a : Cell ι κ}, p[n]? = some a → (p ++ q)[n]? = some a := by
    intro n a ha
    obtain ⟨hn, -⟩ := List.getElem?_eq_some_iff.mp ha
    rwa [List.getElem?_append_left hn]
  induction h with
  | entry => exact .entry
  | next h ha ho ih => exact ih.next (get ha) ho
  | jump h ha hs ih => exact ih.jump (get ha) hs

/-- Where it stands behind, they are reached once its first instruction is. -/
theorem Reaches.append_right (h : Reaches on q n) (hc : Reaches on (p ++ q) p.length) :
    Reaches on (p ++ q) (p.length + n) := by
  have get : ∀ {n : Nat} {a : Cell ι κ}, q[n]? = some a → (p ++ q)[p.length + n]? = some a := by
    intro n a ha
    rwa [List.getElem?_append_right (Nat.le_add_right ..), Nat.add_sub_cancel_left]
  induction h with
  | entry => exact hc
  | next h ha ho ih => exact ih.next (get ha) ho
  | @jump n j k a h ha hs ih =>
    have hj := ih.jump (get ha) hs
    rwa [show p.length + n + 1 + j = p.length + (n + 1 + j) by omega] at hj

theorem Reaches.resolve (h : Reaches on p n) (x : Exit) (m : Nat) :
    Reaches on (Frag.resolve x m p) n := by
  have get : ∀ {n : Nat} {a : Cell ι κ}, p[n]? = some a →
      (Frag.resolve x m p)[n]? = some (a.fill x (p.length - n - 1 + m)) := by
    intro n a ha
    obtain ⟨hn, rfl⟩ := List.getElem?_eq_some_iff.mp ha
    exact resolve_get x m p n hn
  induction h with
  | entry => exact .entry
  | next h ha ho ih =>
    refine ih.next (get ha) ?_
    rwa [Cell.fill_insn]
  | @jump n j k a h ha hs ih =>
    have hslot : (a.fill x (p.length - n - 1 + m)).slot = some (k, .skip j) := by
      simp only [Cell.fill, hs]
    exact ih.jump (get ha) hslot

theorem Reaches.fold (h : Reaches on p n) : Reaches on (Frag.fold p) n := by
  have get : ∀ {n : Nat} {a : Cell ι κ}, p[n]? = some a → (Frag.fold p)[n]? = some a.fold := by
    intro n a ha
    rw [Frag.fold, List.getElem?_map, ha]
    rfl
  induction h with
  | entry => exact .entry
  | next h ha ho ih =>
    refine ih.next (get ha) ?_
    rwa [Cell.fold_insn]
  | @jump n j k a h ha hs ih =>
    have hslot : a.fold.slot = some (k, .skip j) := by
      simp only [Cell.fold, hs]
    exact ih.jump (get ha) hslot

/-- A failure that is given a target is a way there. -/
theorem Live.failure (h : Live on p) (hf : Fails p) (m : Nat) :
    Reaches on (Frag.resolve .failure m p) (p.length + m) := by
  obtain ⟨a, ha, k, hs⟩ := hf
  obtain ⟨n, hn, rfl⟩ := List.getElem_of_mem ha
  have hreach := (h n (Nat.le_of_lt hn)).resolve .failure m
  have hslot : (p[n].fill .failure (p.length - n - 1 + m)).slot =
      some (k, .skip (p.length - n - 1 + m)) := by
    simp only [Cell.fill, hs, if_true]
  have hjump := hreach.jump (resolve_get .failure m p n hn) hslot
  rwa [show n + 1 + (p.length - n - 1 + m) = p.length + m by omega] at hjump

end Reaches

section Live

theorem live_nil : Live on ([] : Frag ι κ) := by
  intro n hn
  obtain rfl : n = 0 := Nat.le_zero.mp hn
  exact .entry

theorem Live.append (hc : Live on p) (hd : Live on q) : Live on (p ++ q) := by
  intro n hn
  rw [List.length_append] at hn
  rcases Nat.le_total n p.length with h | h
  · exact (hc n h).append_left q
  · obtain ⟨j, rfl⟩ := Nat.exists_eq_add_of_le h
    exact (hd j (by omega)).append_right ((hc _ (Nat.le_refl _)).append_left q)

theorem Live.resolve (h : Live on p) (x : Exit) (m : Nat) : Live on (Frag.resolve x m p) := by
  intro n hn
  rw [resolve_length] at hn
  exact (h n hn).resolve x m

theorem live_single {a : Cell ι κ} (h : on a.insn = true) : Live on [a] := by
  intro n hn
  rcases Nat.le_one_iff_eq_zero_or_eq_one.mp hn with rfl | rfl
  · exact .entry
  · exact Reaches.entry.next rfl h

theorem live_straight (h : ∀ a ∈ p, on a.insn = true) : Live on p := by
  induction p with
  | nil => exact live_nil
  | cons a p ih =>
    exact (live_single (h a List.mem_cons_self)).append (ih fun b hb => h b (List.mem_cons_of_mem _ hb))

/-- Over a single instruction, which need not go on. -/
theorem live_skipping (h : on i = true) (a : Cell ι κ) : Live on (skipping i k [a]) := by
  intro n hn
  have hone : Reaches on (skipping i k [a]) 1 := Reaches.entry.next rfl h
  have htwo : Reaches on (skipping i k [a]) (0 + 1 + 1) := Reaches.entry.jump rfl rfl
  rcases n with _ | _ | _ | n
  · exact .entry
  · exact hone
  · exact htwo
  · simp only [skipping_length, List.length_singleton] at hn
    omega

theorem Live.branch (h : on i = true) (hc : Live on p) (hd : Live on q) :
    Live on (Frag.branch i ja k p q) := by
  have hhead : Frag.branch i ja k p q =
      (⟨i, some (k, .skip (p.length + 1))⟩ :: p ++ [⟨ja, some (k, .skip q.length)⟩]) ++ q := by
    simp [Frag.branch]
  have hfront : Live on (⟨i, some (k, .skip (p.length + 1))⟩ :: p) :=
    (live_single (a := ⟨i, some (k, .skip (p.length + 1))⟩) h).append hc
  have hlen : (⟨i, some (k, .skip (p.length + 1))⟩ :: p ++
      [⟨ja, some (k, .skip q.length)⟩] : Frag ι κ).length = p.length + 2 := by simp
  have hsecond : Reaches on (Frag.branch i ja k p q) (p.length + 2) := by
    have hjump : Reaches on (Frag.branch i ja k p q) (0 + 1 + (p.length + 1)) := Reaches.entry.jump rfl rfl
    rwa [show 0 + 1 + (p.length + 1) = p.length + 2 by omega] at hjump
  intro n hn
  rw [branch_length] at hn
  rcases Nat.lt_or_ge n (p.length + 2) with hlt | hge
  · rw [hhead, List.append_assoc]
    exact (hfront n (by simp; omega)).append_left _
  · obtain ⟨j, rfl⟩ := Nat.exists_eq_add_of_le hge
    rw [hhead, ← hlen] at hsecond ⊢
    exact (hd j (by omega)).append_right hsecond

end Live

section Open

theorem Fails.append_left (h : Fails p) (q : Frag ι κ) : Fails (p ++ q) := by
  obtain ⟨a, ha, hk⟩ := h
  exact ⟨a, List.mem_append_left q ha, hk⟩

theorem Fails.append_right (h : Fails q) (p : Frag ι κ) : Fails (p ++ q) := by
  obtain ⟨a, ha, hk⟩ := h
  exact ⟨a, List.mem_append_right p ha, hk⟩

theorem Open.append (hc : Open on p) (hd : Live on q) : Open on (p ++ q) :=
  ⟨hc.live.append hd, hc.fails.append_left q⟩

theorem Live.append_open (hc : Live on p) (hd : Open on q) : Open on (p ++ q) :=
  ⟨hc.append hd.live, hd.fails.append_right p⟩

theorem open_hole (h : on i = true) : Open on [Cell.hole i k .failure] :=
  ⟨live_single h, _, List.mem_singleton_self _, k, rfl⟩

/-- The failures are left as they are where the successes get their target. -/
theorem Open.succeed (h : Open on p) (m : Nat) : Open on (Frag.resolve .success m p) := by
  obtain ⟨a, ha, k, hk⟩ := h.fails
  obtain ⟨n, hn, rfl⟩ := List.getElem_of_mem ha
  have hget := resolve_get .success m p n hn
  refine ⟨h.live.resolve _ _, _, List.mem_of_getElem? hget, k, ?_⟩
  simp only [Cell.fill, hk, reduceCtorEq, if_false]

theorem Open.seq (hl : Open on l) (hr : Open on r) : Open on (seq l r) :=
  (hl.succeed 0).append hr.live

/-- The second alternative is entered by the failures of the first. -/
theorem Open.alt (hl : Open on l) (hr : Open on r) (ja : Exit → Cell ι κ) :
    Open on (alt ja l r) := by
  obtain ⟨a, ha, k, hk⟩ := hr.fails
  refine ⟨fun n hn => ?_, a, List.mem_append_right _ (List.mem_cons_of_mem _ ha), k, hk⟩
  have hsplit : Frag.alt ja l r = (Frag.resolve .failure 1 l ++ [ja .success]) ++ r := by
    simp [Frag.alt]
  have hlen : (Frag.resolve .failure 1 l ++ [ja .success]).length = l.length + 1 := by simp
  have hentry : Reaches on (Frag.alt ja l r) (l.length + 1) :=
    (hl.live.failure hl.fails 1).append_left _
  rcases Nat.lt_or_ge l.length n with hlt | hle
  · obtain ⟨j, rfl⟩ := Nat.exists_eq_add_of_le hlt
    rw [hsplit, List.length_append, hlen] at hn
    rw [hsplit, ← hlen] at hentry
    have hj := (hr.live j (by omega)).append_right hentry
    rwa [hlen, ← hsplit] at hj
  · exact ((hl.live n hle).resolve .failure 1).append_left _

/-- A negation succeeds where the code under it fails. -/
theorem Open.neg (h : Open on l) {ja : Exit → Cell ι κ}
    (hj : ∃ k, (ja .failure).slot = some (k, .exit .failure)) : Open on (neg ja l) := by
  refine ⟨fun n hn => ?_, ja .failure, List.mem_append_right _ (List.mem_singleton_self _), hj⟩
  have hlen : (Frag.neg ja l).length = l.length + 1 := by
    simp [Frag.neg, Frag.fold]
  rcases Nat.lt_or_ge l.length n with hlt | hle
  · obtain rfl : n = l.length + 1 := by omega
    exact (h.live.failure h.fails 1).fold.append_left _
  · exact ((h.live n hle).resolve .failure 1).fold.append_left _

end Open

end Frag

end PktBaffle.Forward
