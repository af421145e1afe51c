import PktBaffle.Forward.Branch

namespace PktBaffle.Forward

variable {ι κ σ ε ρ : Type}

/-- An effect that goes on in a state of `S`, takes a jump `k` in a state of `J k`, or stops
with a fault in `E`. -/
def Move.Within (E : ε → Prop) (S : σ → Prop) (J : κ → σ → Prop) :
    Except ε (Move κ σ ρ) → Prop
  | .ok (.next s) => S s
  | .ok (.jump k s) => J k s
  | .ok (.halt _) => True
  | .error e => E e

/-- A run that leaves at its end in a state of `S`, through an exit in a state of `F`, or
stops with a fault in `E`. Unlike `Fits`, it does not say which of these it is. -/
def Result.Within (E : ε → Prop) (S F : σ → Prop) : Result ε σ ρ → Prop
  | .past n s => n = 0 ∧ S s
  | .exit _ s => F s
  | .halt _ => True
  | .stop e => E e

theorem Move.Within.mono {E : ε → Prop} {S S' : σ → Prop} {J J' : κ → σ → Prop}
    {m : Except ε (Move κ σ ρ)} (h : Move.Within E S J m) (hs : ∀ s, S s → S' s)
    (hj : ∀ k s, J k s → J' k s) : Move.Within E S' J' m := by
  rcases m with e | (s | ⟨k, s⟩ | r)
  · exact h
  · exact hs s h
  · exact hj k s h
  · trivial

theorem Result.Within.mono {E : ε → Prop} {S S' F F' : σ → Prop} {r : Result ε σ ρ}
    (h : r.Within E S F) (hs : ∀ s, S s → S' s) (hf : ∀ s, F s → F' s) : r.Within E S' F' := by
  cases r with
  | past n s => exact ⟨h.1, hs s h.2⟩
  | exit x s => exact hf s h
  | halt v => trivial
  | stop e => exact h

/-- What reaches the end of the first piece goes on in the second. -/
theorem Result.Within.bind {E : ε → Prop} {S Q F : σ → Prop} {r : Result ε σ ρ}
    {f : Nat → σ → Result ε σ ρ} (h : r.Within E Q F) (hf : ∀ s, Q s → (f 0 s).Within E S F) :
    (r.bind f).Within E S F := by
  cases r with
  | past n s =>
    obtain ⟨rfl, hq⟩ := h
    exact hf s hq
  | exit x s => exact h
  | halt v => trivial
  | stop e => exact h

section Covers

variable {M N : Machine ι κ σ ε ρ}

/-- A machine that does at least what another one does runs like it, unless that one stops. -/
theorem Machine.run_covers {is : List ι}
    (ha : ∀ i ∈ is, ∀ s m, M.act i s = .ok m → N.act i s = .ok m) (ht : N.tgt = M.tgt) (n : Nat)
    (s : σ) : (∃ e, M.run is n s = .stop e) ∨ N.run is n s = M.run is n s := by
  induction is generalizing n s with
  | nil => exact .inr rfl
  | cons i is ih =>
    have ih' := ih fun j hj => ha j (List.mem_cons_of_mem _ hj)
    cases n with
    | succ n => exact ih' n s
    | zero =>
      cases hm : M.act i s with
      | error e => exact .inl ⟨e, Machine.run_stop hm⟩
      | ok m =>
        have hn := ha i List.mem_cons_self s m hm
        cases m with
        | next s' =>
          rw [Machine.run_next hm, Machine.run_next hn]
          exact ih' 0 s'
        | halt r =>
          rw [Machine.run_halt hm, Machine.run_halt hn]
          exact .inr rfl
        | jump k s' =>
          cases hk : M.tgt i k with
          | skip d =>
            rw [Machine.run_jump hm hk, Machine.run_jump hn (ht ▸ hk)]
            exact ih' d s'
          | exit x =>
            rw [Machine.run_exit hm hk, Machine.run_exit hn (ht ▸ hk)]
            exact .inr rfl

end Covers

variable [DecidableEq κ]

/-- From every state in `P` the fragment leaves within `S` and `F`, or stops within `E`. -/
def Stays (M : Machine ι κ σ ε ρ) (E : ε → Prop) (c : Frag ι κ) (P S F : σ → Prop) : Prop :=
  ∀ s, P s → (M.cells.run c 0 s).Within E S F

section Rules

variable {M : Machine ι κ σ ε ρ} {E : ε → Prop} {c d : Frag ι κ} {P P' Q S S' F F' I : σ → Prop}
  {i ja : ι} {k : κ}

theorem Stays.weaken (h : Stays M E c P S F) (hp : ∀ s, P' s → P s) (hs : ∀ s, S s → S' s)
    (hf : ∀ s, F s → F' s) : Stays M E c P' S' F' :=
  fun s h' => (h s (hp s h')).mono hs hf

theorem Stays.nil (h : ∀ s, P s → S s) : Stays M E [] P S F :=
  fun s hs => ⟨rfl, h s hs⟩

theorem Stays.append (hc : Stays M E c P Q F) (hd : Stays M E d Q S F) :
    Stays M E (c ++ d) P S F := by
  intro s hs
  rw [Machine.run_append]
  exact (hc s hs).bind hd

/-- One instruction and what stands behind it, by what the instruction does. -/
theorem Stays.cons {a : Cell ι κ} {J : κ → σ → Prop}
    (h : ∀ s, P s → Move.Within E Q J (M.act a.insn s)) (hc : Stays M E c Q S F)
    (hj : ∀ k s, J k s → (∃ n, M.cells.tgt a k = .skip n ∧ (M.cells.run c n s).Within E S F) ∨
      (∃ x, M.cells.tgt a k = .exit x ∧ F s)) :
    Stays M E (a :: c) P S F := by
  intro s hs
  have hm := h s hs
  rw [Machine.run_cons, Machine.cells_act]
  rcases ha : M.act a.insn s with e | (s' | ⟨k, s'⟩ | r)
  · rw [ha] at hm
    exact hm
  · rw [ha] at hm
    exact hc s' hm
  · rw [ha] at hm
    rcases hj k s' hm with ⟨n, ht, hr⟩ | ⟨x, ht, hf⟩
    · simp only [ht]
      exact hr
    · simp only [ht]
      exact hf
  · trivial

/-- An instruction that takes no jump. -/
theorem Stays.op (h : ∀ s, P s → Move.Within E S (fun _ _ => False) (M.act i s)) :
    Stays M E [.op i] P S F :=
  Stays.cons h (Stays.nil fun _ hs => hs) fun _ _ hf => hf.elim

/-- An instruction whose jump, if it is taken, leaves. -/
theorem Stays.hole {x : Exit}
    (h : ∀ s, P s → Move.Within E S (fun j s => j = k ∧ F s) (M.act i s)) :
    Stays M E [.hole i k x] P S F := by
  refine Stays.cons h (Stays.nil fun _ hs => hs) ?_
  rintro _ s ⟨rfl, hf⟩
  exact .inr ⟨x, by simp, hf⟩

theorem Stays.skipping (h : ∀ s, P s → Move.Within E Q (fun j s => j = k ∧ S s) (M.act i s))
    (hc : Stays M E c Q S F) : Stays M E (Frag.skipping i k c) P S F := by
  refine Stays.cons h hc ?_
  rintro _ s ⟨rfl, hs⟩
  have hp := M.cells.run_past c 0 s
  exact .inl ⟨c.length, by simp [Machine.cells], by rw [← Nat.add_zero c.length, hp]; exact ⟨rfl, hs⟩⟩

theorem Stays.branch (h : ∀ s, P s → Move.Within E Q (fun j s => j = k ∧ Q s) (M.act i s))
    (hj : Jumps M ja k) (hc : Stays M E c Q S F) (hd : Stays M E d Q S F) :
    Stays M E (Frag.branch i ja k c d) P S F := by
  have hover : Stays M E (⟨ja, some (k, .skip d.length)⟩ :: d) S S F := by
    intro s hs
    rw [Machine.run_cell_skip (hj.act s)]
    have hp := M.cells.run_past d 0 s
    rw [Nat.add_zero] at hp
    rw [hp]
    exact ⟨rfl, hs⟩
  refine Stays.cons h (hc.append hover) ?_
  rintro _ s ⟨rfl, hs⟩
  refine .inl ⟨c.length + 1, by simp [Machine.cells], ?_⟩
  rw [Machine.run_append, Machine.run_past]
  exact hd s hs

variable (hx : ∀ i k y, M.tgt i k ≠ .exit y)
include hx

/-- The success exits of the left side lead to the right side. -/
theorem Stays.seq (hc : Stays M E c P I I) (hd : Stays M E d I I I) :
    Stays M E (Frag.seq c d) P I I := by
  intro s hs
  have h := hc s hs
  rw [Frag.seq, Machine.run_append, M.run_resolve hx]
  refine Result.Within.bind (Q := I) ?_ hd
  generalize M.cells.run c 0 s = r at h ⊢
  rcases r with ⟨n, s'⟩ | ⟨x | x, s'⟩ | r | e
  · exact h
  · exact ⟨rfl, h⟩
  · exact h
  · trivial
  · exact h

variable (hj : Jumps M ja k)
include hj

/-- The failure exits of the left side lead to the right side, its end over it. -/
theorem Stays.alt (hc : Stays M E c P I I) (hd : Stays M E d I I I) :
    Stays M E (Frag.alt (Cell.hole ja k) c d) P I I := by
  intro s hs
  have h := hc s hs
  rw [Frag.alt, Machine.run_append, M.run_resolve hx]
  generalize M.cells.run c 0 s = r at h ⊢
  rcases r with ⟨n, s'⟩ | ⟨x | x, s'⟩ | r | e
  · obtain ⟨rfl, hi⟩ := h
    have hr : M.cells.run (Cell.hole ja k .success :: d) 0 s' = .exit .success s' :=
      Machine.run_exit (hj.act s') (by simp)
    show (M.cells.run (Cell.hole ja k .success :: d) 0 s').Within E I I
    rw [hr]
    exact hi
  · exact h
  · exact hd s' h
  · trivial
  · exact h

/-- Success and failure exchanged. -/
theorem Stays.neg (hc : Stays M E c P I I) : Stays M E (Frag.neg (Cell.hole ja k) c) P I I := by
  intro s hs
  have h := hc s hs
  rw [Frag.neg, Machine.run_append, M.run_fold hx, M.run_resolve hx]
  generalize M.cells.run c 0 s = r at h ⊢
  rcases r with ⟨n, s'⟩ | ⟨x | x, s'⟩ | r | e
  · obtain ⟨rfl, hi⟩ := h
    have hr : M.cells.run [Cell.hole ja k .failure] 0 s' = .exit .failure s' :=
      Machine.run_exit (hj.act s') (by simp)
    show (M.cells.run [Cell.hole ja k .failure] 0 s').Within E I I
    rw [hr]
    exact hi
  · exact h
  · exact ⟨rfl, h⟩
  · trivial
  · exact h

end Rules

section Pair

variable [DecidableEq ε] [DecidableEq ρ]

/-- The effects of one instruction in two machines as one effect on the pair of states. An
effect of one machine that the other does not share is the fault `none`. -/
def Move.both : Except ε (Move κ σ ρ) → Except ε (Move κ σ ρ) →
    Except (Option ε) (Move κ (σ × σ) ρ)
  | .ok (.next s), .ok (.next t) => .ok (.next (s, t))
  | .ok (.jump k s), .ok (.jump l t) => if k = l then .ok (.jump k (s, t)) else .error none
  | .ok (.halt r), .ok (.halt q) => if r = q then .ok (.halt r) else .error none
  | .error e, .error f => if e = f then .error (some e) else .error none
  | _, _ => .error none

/-- The ways to agree. -/
theorem Move.both_cases {x y : Except ε (Move κ σ ρ)} (h : Move.both x y ≠ .error none) :
    (∃ e, x = .error e ∧ y = .error e) ∨ (∃ r, x = .ok (.halt r) ∧ y = .ok (.halt r)) ∨
      (∃ s t, x = .ok (.next s) ∧ y = .ok (.next t)) ∨
        ∃ k s t, x = .ok (.jump k s) ∧ y = .ok (.jump k t) := by
  rcases x with e | (s | ⟨k, s⟩ | r)
  · rcases y with f | m
    · by_cases he : e = f
      · exact .inl ⟨e, rfl, he ▸ rfl⟩
      · exact absurd (if_neg he) h
    · exact absurd rfl h
  · rcases y with f | (t | ⟨l, t⟩ | q)
    · exact absurd rfl h
    · exact .inr (.inr (.inl ⟨s, t, rfl, rfl⟩))
    · exact absurd rfl h
    · exact absurd rfl h
  · rcases y with f | (t | ⟨l, t⟩ | q)
    · exact absurd rfl h
    · exact absurd rfl h
    · by_cases hk : k = l
      · exact .inr (.inr (.inr ⟨k, s, t, rfl, hk ▸ rfl⟩))
      · exact absurd (if_neg hk) h
    · exact absurd rfl h
  · rcases y with f | (t | ⟨l, t⟩ | q)
    · exact absurd rfl h
    · exact absurd rfl h
    · exact absurd rfl h
    · by_cases hr : r = q
      · exact .inr (.inl ⟨r, rfl, hr ▸ rfl⟩)
      · exact absurd (if_neg hr) h

/-- Two machines step by step side by side, as far as they agree. -/
def Machine.pair (M N : Machine ι κ σ ε ρ) : Machine ι κ (σ × σ) (Option ε) ρ where
  act i s := Move.both (M.act i s.1) (N.act i s.2)
  tgt := M.tgt

/-- The fault of a pair that has not parted. -/
def Agreed (e : Option ε) : Prop := e ≠ none

/-- Both machines are in one state, which satisfies `P`. -/
def Same (P : σ → Prop) (s : σ × σ) : Prop := s.1 = s.2 ∧ P s.1

variable {M N : Machine ι κ σ ε ρ} {c : Frag ι κ} {P S F : σ → Prop} {J : κ → σ → Prop}

@[simp] theorem Machine.pair_act (i : ι) (s : σ × σ) :
    (M.pair N).act i s = Move.both (M.act i s.1) (N.act i s.2) := rfl

/-- Equal effects are one effect. -/
theorem Move.Within.both {m : Except ε (Move κ σ ρ)} (h : Move.Within (fun _ => True) S J m) :
    Move.Within Agreed (Same S) (fun k => Same (J k)) (Move.both m m) := by
  rcases m with e | (s | ⟨k, s⟩ | r)
  · simp [Move.both, Move.Within, Agreed]
  · exact ⟨rfl, h⟩
  · simpa [Move.both, Move.Within, Same] using h
  · simp [Move.both, Move.Within]

/-- An unconditional jump of both machines is one of the pair. -/
theorem Jumps.pair {ja : ι} {k : κ} (hm : Jumps M ja k) (hn : Jumps N ja k) :
    Jumps (M.pair N) ja k where
  act s := by
    rw [Machine.pair_act, hm.act, hn.act, Move.both, if_pos rfl]

/-- A run of one machine as a run of two in one state. -/
def Result.twice : Result ε σ ρ → Result (Option ε) (σ × σ) ρ
  | .past n s => .past n (s, s)
  | .exit x s => .exit x (s, s)
  | .halt r => .halt r
  | .stop e => .stop (some e)

/-- Where every instruction acts alike in both machines they stay in one state. -/
theorem Machine.run_pair (ha : ∀ a ∈ c, ∀ s, N.act a.insn s = M.act a.insn s) (n : Nat) (s : σ) :
    (M.pair N).cells.run c n (s, s) = (M.cells.run c n s).twice := by
  induction c generalizing n s with
  | nil => simp [Result.twice]
  | cons a c ih =>
    have ih' := ih fun b hb => ha b (List.mem_cons_of_mem _ hb)
    cases n with
    | succ n => exact ih' n s
    | zero =>
      have hp : (M.pair N).act a.insn (s, s) = Move.both (M.act a.insn s) (M.act a.insn s) := by
        rw [Machine.pair_act, ha a List.mem_cons_self]
      rw [Machine.run_cons, Machine.run_cons, Machine.cells_act, Machine.cells_act, hp]
      rcases M.act a.insn s with e | (s' | ⟨k, s'⟩ | r)
      · simp [Move.both, Result.twice]
      · exact ih' 0 s'
      · simp only [Move.both, if_true]
        have ht : (M.pair N).cells.tgt a k = M.cells.tgt a k := rfl
        rw [ht]
        cases M.cells.tgt a k with
        | skip m => exact ih' m s'
        | exit x => rfl
      · simp [Move.both, Result.twice]

theorem Stays.same (h : Stays M (fun _ => True) c P S F)
    (ha : ∀ a ∈ c, ∀ s, N.act a.insn s = M.act a.insn s) :
    Stays (M.pair N) Agreed c (Same P) (Same S) (Same F) := by
  rintro ⟨s, s₂⟩ ⟨he, hs⟩
  obtain rfl : s = s₂ := he
  have hw := h s hs
  rw [Machine.run_pair ha]
  generalize M.cells.run c 0 s = r at hw ⊢
  rcases r with ⟨n, s'⟩ | ⟨x, s'⟩ | r | e
  · exact ⟨hw.1, rfl, hw.2⟩
  · exact ⟨rfl, hw⟩
  · trivial
  · exact Option.some_ne_none e

end Pair

end PktBaffle.Forward
