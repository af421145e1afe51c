import PktBaffle.Forward.Machine

namespace PktBaffle.Forward

variable {ι κ σ ε ρ : Type}

/-- An instruction of a fragment under construction. At most one of its jump slots is
symbolic: it leaves the fragment through an exit, or skips a number of instructions that
is not yet limited by the width of the slot. -/
structure Cell (ι κ : Type) where
  insn : ι
  slot : Option (κ × Target)

namespace Cell

/-- An instruction without a symbolic slot. -/
def op (i : ι) : Cell ι κ := ⟨i, none⟩

/-- An instruction whose slot `k` is waiting for the place of exit `x`. -/
def hole (i : ι) (k : κ) (x : Exit) : Cell ι κ := ⟨i, some (k, .exit x)⟩

/-- The instruction as it stands in the program: a filled slot holds its displacement,
an unfilled one whatever placeholder it was emitted with. -/
def raw (put : ι → κ → Nat → ι) (c : Cell ι κ) : ι :=
  match c.slot with
  | some (k, .skip n) => put c.insn k n
  | _ => c.insn

/-- Fill the slot waiting for exit `x`. -/
def fill (x : Exit) (n : Nat) (c : Cell ι κ) : Cell ι κ :=
  match c.slot with
  | some (k, .exit y) => if y = x then ⟨c.insn, some (k, .skip n)⟩ else c
  | _ => c

/-- A slot that waits for either exit now waits for failure. -/
def fold (c : Cell ι κ) : Cell ι κ :=
  match c.slot with
  | some (k, .exit _) => ⟨c.insn, some (k, .exit .failure)⟩
  | _ => c

@[simp] theorem op_insn (i : ι) : (op i : Cell ι κ).insn = i := rfl
@[simp] theorem op_slot (i : ι) : (op i : Cell ι κ).slot = none := rfl
@[simp] theorem hole_insn (i : ι) (k : κ) (x : Exit) : (hole i k x).insn = i := rfl
@[simp] theorem hole_slot (i : ι) (k : κ) (x : Exit) :
    (hole i k x).slot = some (k, .exit x) := rfl

@[simp] theorem fill_insn (x : Exit) (n : Nat) (c : Cell ι κ) : (c.fill x n).insn = c.insn := by
  unfold fill
  split
  · split <;> rfl
  · rfl

@[simp] theorem fold_insn (c : Cell ι κ) : c.fold.insn = c.insn := by
  unfold fold
  split <;> rfl

end Cell

abbrev Frag (ι κ : Type) := List (Cell ι κ)

/-- A machine on plain instructions also runs fragments. -/
def Machine.cells [DecidableEq κ] (M : Machine ι κ σ ε ρ) : Machine (Cell ι κ) κ σ ε ρ where
  act c := M.act c.insn
  tgt c k :=
    match c.slot with
    | some (j, t) => if j = k then t else M.tgt c.insn k
    | none => M.tgt c.insn k

namespace Frag

/-- Let exit `x` of the fragment lead to the point `d` instructions behind its end. -/
def resolve (x : Exit) (d : Nat) : Frag ι κ → Frag ι κ
  | [] => []
  | c :: cs => c.fill x (cs.length + d) :: resolve x d cs

/-- Both exits become failure. -/
def fold (c : Frag ι κ) : Frag ι κ := c.map Cell.fold

/-- `l` and then, if it succeeds, `r`. -/
def seq (l r : Frag ι κ) : Frag ι κ := resolve .success 0 l ++ r

/-- `l`, and if it fails `r`; `ja` is the unconditional jump with its slot. -/
def alt (ja : Exit → Cell ι κ) (l r : Frag ι κ) : Frag ι κ :=
  resolve .failure 1 l ++ ja .success :: r

/-- Success and failure of `c` exchanged. -/
def neg (ja : Exit → Cell ι κ) (c : Frag ι κ) : Frag ι κ :=
  fold (resolve .failure 1 c) ++ [ja .failure]

@[simp] theorem resolve_length (x : Exit) (d : Nat) (c : Frag ι κ) :
    (resolve x d c).length = c.length := by
  induction c with
  | nil => rfl
  | cons c cs ih => simp [resolve, ih]

theorem resolve_get (x : Exit) (d : Nat) (l : Frag ι κ) (j : Nat) (h : j < l.length) :
    (resolve x d l)[j]? = some (l[j].fill x (l.length - j - 1 + d)) := by
  induction l generalizing j with
  | nil => simp at h
  | cons a cs ih =>
    cases j with
    | zero => simp [resolve]
    | succ j => simpa [resolve, Nat.add_sub_add_right] using ih j (by simpa using h)

theorem mem_resolve {x : Exit} {d : Nat} {c : Frag ι κ} {a : Cell ι κ}
    (h : a ∈ resolve x d c) : ∃ b ∈ c, ∃ n, d ≤ n ∧ a = b.fill x n := by
  induction c with
  | nil => simp [resolve] at h
  | cons b cs ih =>
    rcases List.mem_cons.mp h with rfl | h
    · exact ⟨b, List.mem_cons_self, _, Nat.le_add_left .., rfl⟩
    · obtain ⟨b', hb, n, hd, he⟩ := ih h
      exact ⟨b', List.mem_cons_of_mem _ hb, n, hd, he⟩

end Frag

variable [DecidableEq κ] (M : Machine ι κ σ ε ρ)

@[simp] theorem Machine.cells_act (c : Cell ι κ) : M.cells.act c = M.act c.insn := rfl

@[simp] theorem Machine.cells_tgt_op (i : ι) (k : κ) : M.cells.tgt (.op i) k = M.tgt i k := rfl

@[simp] theorem Machine.cells_tgt_hole (i : ι) (k : κ) (x : Exit) :
    M.cells.tgt (.hole i k x) k = .exit x := by
  simp [Machine.cells]

theorem Machine.cells_tgt_other (i : ι) {k k' : κ} (x : Exit) (h : k ≠ k') :
    M.cells.tgt (.hole i k x) k' = M.tgt i k' := by
  simp [Machine.cells, h]

/-- A filled slot takes the run past the end, any other slot is as it was. -/
theorem Machine.cells_tgt_fill (x : Exit) (n : Nat) (c : Cell ι κ) (k : κ)
    (hx : ∀ i k y, M.tgt i k ≠ .exit y) :
    M.cells.tgt (c.fill x n) k =
      if M.cells.tgt c k = .exit x then .skip n else M.cells.tgt c k := by
  obtain ⟨i, slot⟩ := c
  cases slot with
  | none => simp [Cell.fill, Machine.cells, hx]
  | some q =>
    obtain ⟨j, t⟩ := q
    by_cases hj : j = k
    · subst hj
      cases t with
      | skip m => simp [Cell.fill, Machine.cells]
      | exit y => by_cases hy : y = x <;> simp [Cell.fill, Machine.cells, hy]
    · cases t with
      | skip m => simp [Cell.fill, Machine.cells, hj, hx]
      | exit y => by_cases hy : y = x <;> simp [Cell.fill, Machine.cells, hy, hj, hx]

theorem Machine.cells_tgt_fold (c : Cell ι κ) (k : κ) (hx : ∀ i k y, M.tgt i k ≠ .exit y) :
    M.cells.tgt c.fold k =
      match M.cells.tgt c k with
      | .exit _ => .exit .failure
      | t => t := by
  obtain ⟨i, slot⟩ := c
  cases slot with
  | none =>
    cases ht : M.tgt i k with
    | skip m => simp [Cell.fold, Machine.cells, ht]
    | exit y => exact absurd ht (hx i k y)
  | some q =>
    obtain ⟨j, t⟩ := q
    cases t with
    | skip m =>
      cases ht : M.tgt i k with
      | skip m' => by_cases hj : j = k <;> simp [Cell.fold, Machine.cells, hj, ht]
      | exit y => exact absurd ht (hx i k y)
    | exit y =>
      cases ht : M.tgt i k with
      | skip m' => by_cases hj : j = k <;> simp [Cell.fold, Machine.cells, hj, ht]
      | exit y => exact absurd ht (hx i k y)

/-- Resolving an exit moves exactly the runs that left through it. -/
theorem Machine.run_resolve (hx : ∀ i k y, M.tgt i k ≠ .exit y) (x : Exit) (d : Nat)
    (c : Frag ι κ) (n : Nat) (s : σ) :
    M.cells.run (Frag.resolve x d c) n s = (M.cells.run c n s).redirect x d := by
  induction c generalizing n s with
  | nil => simp [Frag.resolve, Result.redirect]
  | cons a cs ih =>
    cases n with
    | succ n => simpa [Frag.resolve] using ih n s
    | zero =>
      simp only [Frag.resolve, run_cons, cells_act, Cell.fill_insn]
      cases M.act a.insn s with
      | error e => rfl
      | ok m =>
        cases m with
        | next s' => exact ih 0 s'
        | halt r => rfl
        | jump k s' =>
          simp only [M.cells_tgt_fill x _ a k hx]
          cases M.cells.tgt a k with
          | skip m => simpa using ih m s'
          | exit y =>
            by_cases hy : y = x
            · have hp := M.cells.run_past (Frag.resolve x d cs) d s'
              rw [Frag.resolve_length] at hp
              simpa [hy, Result.redirect] using hp
            · simp [hy, Result.redirect]

theorem Machine.run_fold (hx : ∀ i k y, M.tgt i k ≠ .exit y) (c : Frag ι κ) (n : Nat) (s : σ) :
    M.cells.run (Frag.fold c) n s = (M.cells.run c n s).fold := by
  induction c generalizing n s with
  | nil => simp [Frag.fold, Result.fold]
  | cons a cs ih =>
    cases n with
    | succ n => simpa [Frag.fold] using ih n s
    | zero =>
      simp only [Frag.fold, List.map_cons, run_cons, cells_act, Cell.fold_insn]
      cases M.act a.insn s with
      | error e => rfl
      | ok m =>
        cases m with
        | next s' => exact ih 0 s'
        | halt r => rfl
        | jump k s' =>
          simp only [M.cells_tgt_fold a k hx]
          cases M.cells.tgt a k with
          | skip m => exact ih m s'
          | exit y => rfl

end PktBaffle.Forward
