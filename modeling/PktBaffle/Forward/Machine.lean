import Mathlib

namespace PktBaffle.Forward

/-- Where control leaves a fragment of code that has two ways out. -/
inductive Exit where
  | success
  | failure
  deriving DecidableEq, Repr

/-- What one instruction does: fall through, take the jump in slot `k`, or end the run. -/
inductive Move (κ σ ρ : Type) where
  | next (s : σ)
  | jump (k : κ) (s : σ)
  | halt (r : ρ)

/-- Where a jump slot points: over the next `n` instructions, or out of the fragment. -/
inductive Target where
  | skip (n : Nat)
  | exit (x : Exit)
  deriving DecidableEq, Repr

/-- How a run over a list of instructions ends. `past n s` has run off the end of the
list with `n` more instructions to skip. -/
inductive Result (ε σ ρ : Type) where
  | past (n : Nat) (s : σ)
  | exit (x : Exit) (s : σ)
  | halt (r : ρ)
  | stop (e : ε)

namespace Result

variable {ε σ ρ : Type}

/-- Carry on with the code behind a list the run has left at its end. -/
def bind (r : Result ε σ ρ) (f : Nat → σ → Result ε σ ρ) : Result ε σ ρ :=
  match r with
  | .past n s => f n s
  | .exit x s => .exit x s
  | .halt v => .halt v
  | .stop e => .stop e

/-- Exit `x` now leads to the point `d` instructions behind the end. -/
def redirect (x : Exit) (d : Nat) : Result ε σ ρ → Result ε σ ρ
  | .exit y s => if y = x then .past d s else .exit y s
  | r => r

/-- The success exit becomes a failure exit. -/
def fold : Result ε σ ρ → Result ε σ ρ
  | .exit _ s => .exit .failure s
  | r => r

@[simp] theorem bind_past (n : Nat) (s : σ) (f : Nat → σ → Result ε σ ρ) :
    (past n s).bind f = f n s := rfl

@[simp] theorem bind_exit (x : Exit) (s : σ) (f : Nat → σ → Result ε σ ρ) :
    (exit x s).bind f = exit x s := rfl

@[simp] theorem bind_halt (v : ρ) (f : Nat → σ → Result ε σ ρ) :
    (halt v).bind f = halt v := rfl

@[simp] theorem bind_stop (e : ε) (f : Nat → σ → Result ε σ ρ) :
    (stop e).bind f = stop e := rfl

end Result

/-- A machine whose jumps only go forward. `act` is the effect of one instruction and
`tgt` reads the displacement stored in one of its jump slots. -/
structure Machine (α κ σ ε ρ : Type) where
  act : α → σ → Except ε (Move κ σ ρ)
  tgt : α → κ → Target

namespace Machine

variable {α κ σ ε ρ : Type} (M : Machine α κ σ ε ρ)

/-- Run a list of instructions. The program counter only moves forward, so it is the
position in the list: `n` counts the instructions still to be jumped over. -/
def run : List α → Nat → σ → Result ε σ ρ
  | [], n, s => .past n s
  | _ :: is, n + 1, s => run is n s
  | i :: is, 0, s =>
    match M.act i s with
    | .error e => .stop e
    | .ok (.halt r) => .halt r
    | .ok (.next s') => run is 0 s'
    | .ok (.jump k s') =>
      match M.tgt i k with
      | .skip n => run is n s'
      | .exit x => .exit x s'

@[simp] theorem run_nil (n : Nat) (s : σ) : M.run [] n s = .past n s := by
  cases n <;> rfl

@[simp] theorem run_skip (i : α) (is : List α) (n : Nat) (s : σ) :
    M.run (i :: is) (n + 1) s = M.run is n s := rfl

theorem run_cons (i : α) (is : List α) (s : σ) :
    M.run (i :: is) 0 s =
      match M.act i s with
      | .error e => .stop e
      | .ok (.halt r) => .halt r
      | .ok (.next s') => M.run is 0 s'
      | .ok (.jump k s') =>
        match M.tgt i k with
        | .skip n => M.run is n s'
        | .exit x => .exit x s' := rfl

variable {M} in
theorem run_next {i : α} {is : List α} {s s' : σ} (h : M.act i s = .ok (.next s')) :
    M.run (i :: is) 0 s = M.run is 0 s' := by
  rw [run_cons, h]

variable {M} in
theorem run_jump {i : α} {is : List α} {s s' : σ} {k : κ} {n : Nat}
    (h : M.act i s = .ok (.jump k s')) (ht : M.tgt i k = .skip n) :
    M.run (i :: is) 0 s = M.run is n s' := by
  simp only [run_cons, h, ht]

variable {M} in
theorem run_exit {i : α} {is : List α} {s s' : σ} {k : κ} {x : Exit}
    (h : M.act i s = .ok (.jump k s')) (ht : M.tgt i k = .exit x) :
    M.run (i :: is) 0 s = .exit x s' := by
  simp only [run_cons, h, ht]

variable {M} in
theorem run_halt {i : α} {is : List α} {s : σ} {r : ρ} (h : M.act i s = .ok (.halt r)) :
    M.run (i :: is) 0 s = .halt r := by
  rw [run_cons, h]

variable {M} in
theorem run_stop {i : α} {is : List α} {s : σ} {e : ε} (h : M.act i s = .error e) :
    M.run (i :: is) 0 s = .stop e := by
  rw [run_cons, h]

/-- Skipping is the same as starting further down. -/
theorem run_drop (is : List α) (n : Nat) (s : σ) (h : n ≤ is.length) :
    M.run is n s = M.run (is.drop n) 0 s := by
  induction is generalizing n with
  | nil => simp_all
  | cons i is ih =>
    cases n with
    | zero => rfl
    | succ n => simpa using ih n (by simpa using h)

theorem run_past (is : List α) (d : Nat) (s : σ) :
    M.run is (is.length + d) s = .past d s := by
  induction is with
  | nil => simp
  | cons i is ih =>
    have hl : (i :: is).length + d = (is.length + d) + 1 := by
      simp only [List.length_cons]
      omega
    rw [hl, run_skip, ih]

/-- Two pieces of code in a row: what leaves the first at its end enters the second. -/
theorem run_append (xs ys : List α) (n : Nat) (s : σ) :
    M.run (xs ++ ys) n s = (M.run xs n s).bind (M.run ys) := by
  induction xs generalizing n s with
  | nil => simp
  | cons i xs ih =>
    cases n with
    | succ n => simpa using ih n s
    | zero =>
      rw [List.cons_append, run_cons, run_cons]
      cases M.act i s with
      | error e => rfl
      | ok m =>
        cases m with
        | next s' => exact ih 0 s'
        | halt r => rfl
        | jump k s' =>
          cases ht : M.tgt i k with
          | skip n => simpa [ht] using ih n s'
          | exit x => simp [ht]

/-- Replacing each instruction by one that acts alike leaves every run as it was. -/
theorem run_map {β : Type} (N : Machine β κ σ ε ρ) (f : β → α) (is : List β)
    (h : ∀ i ∈ is, ∀ s, M.act (f i) s = N.act i s ∧
      ∀ k s', N.act i s = .ok (.jump k s') → M.tgt (f i) k = N.tgt i k)
    (n : Nat) (s : σ) : M.run (is.map f) n s = N.run is n s := by
  induction is generalizing n s with
  | nil => simp
  | cons i is ih =>
    have ih' := ih (fun j hj => h j (List.mem_cons_of_mem _ hj))
    cases n with
    | succ n => simpa using ih' n s
    | zero =>
      obtain ⟨ha, ht⟩ := h i List.mem_cons_self s
      rw [List.map_cons, run_cons, run_cons, ha]
      cases hm : N.act i s with
      | error e => rfl
      | ok m =>
        cases m with
        | next s' => exact ih' 0 s'
        | halt r => rfl
        | jump k s' =>
          have hk := ht k s' hm
          cases hn : N.tgt i k with
          | skip n => simpa [hk, hn] using ih' n s'
          | exit x => simp [hk, hn]

end Machine

end PktBaffle.Forward
