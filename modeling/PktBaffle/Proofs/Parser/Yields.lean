import PktBaffle.Proofs.Parser.Grammar

namespace PktBaffle.Proofs.Parser
open PktBaffle.Lexer Parsing

/-! ### What a successful step has read -/

/-- If the step succeeds at position `i`, it ends at a position `j` of the same tokens, with a
result, that satisfy `Q`. -/
def Yields {α : Type} (tokens : List Spanned) (m : Parse α) (i : Nat) (Q : α → Nat → Prop) : Prop :=
  ∀ a q, m ⟨tokens, i, 0⟩ = .ok (a, q) → ∃ j, q = ⟨tokens, j, 0⟩ ∧ Q a j

section
variable {α β : Type} {tokens : List Spanned} {i : Nat} {Q R : α → Nat → Prop}

theorem Yields.bind {m : Parse α} {f : α → Parse β} {Q : β → Nat → Prop}
    (h : Yields tokens m i fun a j => Yields tokens (f a) j Q) : Yields tokens (m >>= f) i Q := by
  intro b q hb
  change (m ⟨tokens, i, 0⟩).bind (fun r => f r.1 r.2) = _ at hb
  cases hm : m ⟨tokens, i, 0⟩ with
  | error e =>
    rw [hm] at hb
    cases hb
  | ok r =>
    rw [hm] at hb
    obtain ⟨j, hj, hf⟩ := h r.1 r.2 hm
    change f r.1 r.2 = _ at hb
    rw [hj] at hb
    exact hf b q hb

theorem Yields.mono {m : Parse α} (h : Yields tokens m i Q) (hq : ∀ a j, Q a j → R a j) :
    Yields tokens m i R := by
  intro a q hm
  obtain ⟨j, hj, hQ⟩ := h a q hm
  exact ⟨j, hj, hq a j hQ⟩

theorem Yields.pure {a : α} (h : Q a i) : Yields tokens (pure a) i Q := by
  intro b q hb
  cases hb
  exact ⟨i, rfl, h⟩

theorem Yields.throw {e : Error} : Yields tokens (throw e : Parse α) i Q := by
  intro b q hb
  cases hb

theorem Yields.err {message : String} : Yields tokens (err message : Parse α) i Q := Yields.throw

theorem Yields.ite {c : Prop} [Decidable c] {m m' : Parse α} (h : c → Yields tokens m i Q)
    (h' : ¬ c → Yields tokens m' i Q) : Yields tokens (if c then m else m') i Q := by
  split
  · exact h ‹_›
  · exact h' ‹_›

/-- A step that looks at the current token. -/
theorem Yields.looks {f : Option Token → Parse α} (h : Yields tokens (f (tokAt tokens i)) i Q) :
    Yields tokens (curTok >>= f) i Q := h

theorem Yields.get {f : Parser → Parse α} (h : Yields tokens (f ⟨tokens, i, 0⟩) i Q) :
    Yields tokens (get >>= f) i Q := h

theorem Yields.peekTok {n : Nat} {Q : Option Token → Nat → Prop} (h : Q (tokAt tokens (i + n)) i) :
    Yields tokens (peekTok n) i Q := by
  intro b q hb
  cases hb
  exact ⟨i, rfl, h⟩

/-- Stepping over a token that is there. -/
theorem Yields.skip {t : Token} (ht : tokAt tokens i = some t) {f : Option Token → Parse α}
    (h : Yields tokens (f (some t)) (i + 1) Q) : Yields tokens (advance >>= f) i Q := by
  intro b q hb
  rw [advance_bind (p := ⟨tokens, i, 0⟩) ht] at hb
  exact h b q hb

theorem Yields.advance {Q : Option Token → Nat → Prop} (hnone : tokAt tokens i = none → Q none i)
    (hsome : ∀ t, tokAt tokens i = some t → Q (some t) (i + 1)) : Yields tokens advance i Q := by
  intro b q hb
  rw [advance_run, tok_at] at hb
  cases ht : tokAt tokens i with
  | none =>
    rw [ht] at hb
    cases hb
    exact ⟨i, rfl, hnone ht⟩
  | some t =>
    rw [ht] at hb
    cases hb
    exact ⟨i + 1, rfl, hsome t ht⟩

theorem Yields.eat {t : Token} {Q : Bool → Nat → Prop}
    (hyes : tokAt tokens i = some t → Q true (i + 1))
    (hno : tokAt tokens i ≠ some t → Q false i) : Yields tokens (eat t) i Q := by
  intro b q hb
  rw [eat_run, tok_at] at hb
  split at hb
  · cases hb
    exact ⟨i + 1, rfl, hyes ‹_›⟩
  · cases hb
    exact ⟨i, rfl, hno ‹_›⟩

theorem Yields.expect {t : Token} {Q : Unit → Nat → Prop}
    (h : tokAt tokens i = some t → Q () (i + 1)) : Yields tokens (expect t) i Q := by
  refine Yields.bind (Yields.eat (fun ht => ?_) fun _ => ?_)
  · exact Yields.pure (h ht)
  · exact Yields.looks (i := i) Yields.err

theorem Yields.parseU32 {Q : UInt32 → Nat → Prop}
    (h : ∀ n, tokAt tokens i = some (.num n) → n.toNat ≤ 0xffffffff → Q n.toUInt32 (i + 1)) :
    Yields tokens parseU32 i Q := by
  refine Yields.looks (Yields.bind (Yields.advance (fun _ => Yields.err) fun t ht => ?_))
  split
  · rename_i n hn
    cases hn
    refine Yields.ite (fun _ => Yields.err) fun hle => Yields.pure (h n ht ?_)
    simpa [UInt64.lt_iff_toNat_lt] using hle
  · exact Yields.err

theorem Yields.parseU16 {Q : UInt16 → Nat → Prop}
    (h : ∀ n, tokAt tokens i = some (.num n) → n.toNat ≤ 0xffff → Q n.toUInt32.toUInt16 (i + 1)) :
    Yields tokens parseU16 i Q := by
  refine Yields.bind (Yields.parseU32 fun n ht hn => Yields.ite (fun _ => Yields.err)
    fun hle => Yields.pure (h n ht ?_))
  have hnat : n.toUInt32.toNat ≤ 0xffff := by simpa [UInt32.lt_iff_toNat_lt] using hle
  rw [UInt64.toNat_toUInt32, Nat.mod_eq_of_lt (by omega)] at hnat
  exact hnat

/-- What is known of any step: it goes forward. -/
theorem Yields.forward {m : Parse α} (hm : Safe 0 m) (hi : i ≤ tokens.length) :
    Yields tokens m i fun _ j => i ≤ j ∧ j ≤ tokens.length := by
  intro a q ha
  have hends := hm ⟨tokens, i, 0⟩ hi (Nat.zero_le _)
  rw [ha] at hends
  obtain ⟨htokens, hdepth, hle, hbound⟩ := hends
  refine ⟨q.pos, ?_, hle, hbound⟩
  cases q
  simp only at htokens hdepth
  rw [htokens, hdepth]

end

/-! ### Every primitive of a filter -/

open Classical in
/-- `prim`, refused where what it has read lacks the property `G`. -/
noncomputable def suchThat (prim : Parse Primitive) (G : Nat → Nat → Primitive → Prop) :
    Parse Primitive := fun p =>
  match prim p with
  | .ok (x, q) => if G p.pos q.pos x then .ok (x, q) else .error (.parseError "refused")
  | .error e => .error e

/-- The filter reads as `e`, and each primitive in it, read from `i` up to `j`, satisfies `G`. -/
def EveryPrimitive (tokens : List Spanned) (G : Nat → Nat → Primitive → Prop) (e : Expr) : Prop :=
  Derives (suchThat parsePrimitive G) tokens .expr 0 0 tokens.length e

section
variable {prim prim' : Parse Primitive} {tokens : List Spanned}

theorem suchThat_ok {G : Nat → Nat → Primitive → Prop} {i j : Nat} {x : Primitive} :
    suchThat prim G ⟨tokens, i, 0⟩ = .ok (x, ⟨tokens, j, 0⟩) ↔
      prim ⟨tokens, i, 0⟩ = .ok (x, ⟨tokens, j, 0⟩) ∧ G i j x := by
  unfold suchThat
  cases hp : prim ⟨tokens, i, 0⟩ with
  | error e => exact ⟨(fun h => nomatch h), (fun h => nomatch h.1)⟩
  | ok r =>
    obtain ⟨y, q⟩ := r
    by_cases hG : G i q.pos y
    · simp only [hG, if_true]
      refine ⟨fun h => ?_, fun h => h.1⟩
      cases h
      exact ⟨rfl, hG⟩
    · simp only [hG, if_false]
      refine ⟨(fun h => nomatch h), fun ⟨h, hg⟩ => ?_⟩
      cases h
      exact absurd hg hG

theorem Derives.mono (h : ∀ i j x, prim ⟨tokens, i, 0⟩ = .ok (x, ⟨tokens, j, 0⟩) →
      prim' ⟨tokens, i, 0⟩ = .ok (x, ⟨tokens, j, 0⟩)) {c : Cat} {d i j : Nat} {e : Expr}
    (he : Derives prim tokens c d i j e) : Derives prim' tokens c d i j e := by
  induction he with
  | primitive hx => exact .primitive (h _ _ _ hx)
  | paren hopen hd _ hclose ih => exact .paren hopen hd ih hclose
  | atom _ ih => exact .atom ih
  | not hnot _ ih => exact .not hnot ih
  | single _ ih => exact .single ih
  | and _ hop _ ihl ihr => exact .and ihl hop ihr
  | or _ hop _ ihl ihr => exact .or ihl hop ihr
  | juxtapose _ _ ihl ihr => exact .juxtapose ihl ihr

/-- Two properties that agree on all that `parse_primitive` reads agree on every filter. -/
theorem everyPrimitive_congr {G H : Nat → Nat → Primitive → Prop} {e : Expr}
    (h : ∀ i j x, parsePrimitive ⟨tokens, i, 0⟩ = .ok (x, ⟨tokens, j, 0⟩) → (G i j x ↔ H i j x)) :
    EveryPrimitive tokens G e ↔ EveryPrimitive tokens H e := by
  constructor
  · refine fun he => Derives.mono (fun i j x hx => ?_) he
    obtain ⟨hp, hg⟩ := suchThat_ok.mp hx
    exact suchThat_ok.mpr ⟨hp, (h i j x hp).mp hg⟩
  · refine fun he => Derives.mono (fun i j x hx => ?_) he
    obtain ⟨hp, hg⟩ := suchThat_ok.mp hx
    exact suchThat_ok.mpr ⟨hp, (h i j x hp).mpr hg⟩

end

end PktBaffle.Proofs.Parser
