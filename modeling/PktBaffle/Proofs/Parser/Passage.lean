import PktBaffle.Proofs.Parser.Yields

namespace PktBaffle.Proofs.Parser
open PktBaffle.Lexer Parsing

/-! ### Tokens without their offsets -/

def words (tokens : List Spanned) : List Token := tokens.map (·.token)

/-- The same tokens, wherever they stand in the source, read up to the same one. -/
structure Same (p p' : Parser) : Prop where
  tokens : words p.tokens = words p'.tokens
  pos : p.pos = p'.pos
  depth : p.depth = p'.depth

/-- Both succeed, with one result, or both fail. -/
def Alike {α : Type} : Except Error (α × Parser) → Except Error (α × Parser) → Prop
  | .ok (a, q), .ok (a', q') => a = a' ∧ Same q q'
  | .error _, .error _ => True
  | _, _ => False

theorem tokAt_words (tokens : List Spanned) (i : Nat) : tokAt tokens i = (words tokens)[i]? := by
  unfold tokAt words
  rw [List.getElem?_map]

theorem Same.tokAt {p p' : Parser} (h : Same p p') (i : Nat) :
    tokAt p.tokens i = tokAt p'.tokens i := by
  rw [tokAt_words, tokAt_words, h.tokens]

theorem Same.tok {p p' : Parser} (h : Same p p') : tok p = tok p' := by
  change Parser.tokAt p.tokens p.pos = Parser.tokAt p'.tokens p'.pos
  rw [h.tokAt, h.pos]

theorem Same.length {p p' : Parser} (h : Same p p') : p.tokens.length = p'.tokens.length := by
  have := congrArg List.length h.tokens
  simpa [words] using this

theorem Same.next {p p' : Parser} (h : Same p p') : Same (next p) (next p') :=
  ⟨h.tokens, congrArg (· + 1) h.pos, h.depth⟩

/-! ### Which tokens a step reads -/

/-- Neither a logical word nor one the lexer does not know. -/
def calm : Token → Bool
  | .and | .or | .ident _ => false
  | _ => true

def known : Token → Bool
  | .ident _ => false
  | _ => true

def mild (t : Token) : Bool := calm t && t != .minus

/-- What may stand before a `-`: an operand or the operator or bracket before one. -/
def arms : Token → Bool
  | .num _ | .rParen | .rBracket | .lParen | .lBracket => true
  | .plus | .minus | .star | .slash | .percent | .pipe | .caret | .amp | .shl | .shr => true
  | _ => false

def before (tokens : List Spanned) (i : Nat) : Option Token :=
  if i = 0 then none else tokAt tokens (i - 1)

section
variable (A : Token → Bool) (B : Option Token → Prop)

/-- The token at `k` is one of `A`, and `B` holds of what stands before it if it is a `-`. -/
def Fine (tokens : List Spanned) (k : Nat) : Prop :=
  ∃ t, tokAt tokens k = some t ∧ A t = true ∧ (t = .minus → B (before tokens k))

def Stretch (tokens : List Spanned) (i j : Nat) : Prop :=
  ∀ k, i ≤ k → k < j → Fine A B tokens k

/-- At `p`, the step does not see the offsets, and reads only fine tokens if it succeeds. -/
structure PassesAt {α : Type} (m : Parse α) (p : Parser) : Prop where
  blind : ∀ p', Same p p' → Alike (m p) (m p')
  reads : ∀ a q, m p = .ok (a, q) →
    q.tokens = p.tokens ∧ p.pos ≤ q.pos ∧ Stretch A B p.tokens p.pos q.pos

def Passes {α : Type} (m : Parse α) : Prop := ∀ p, PassesAt A B m p

/-- A `-` may stand here. -/
def Ready (p : Parser) : Prop := B (before p.tokens p.pos)

/-- The step ends where a `-` may stand. -/
structure ArmedAt {α : Type} (m : Parse α) (p : Parser) : Prop extends PassesAt A B m p where
  ready : ∀ a q, m p = .ok (a, q) → Ready B q

/-- From where a `-` may stand, to where one may stand. -/
def Armed {α : Type} (m : Parse α) : Prop := ∀ p, Ready B p → ArmedAt A B m p

end

section
variable {A : Token → Bool} {B : Option Token → Prop} {α β : Type} {p : Parser}

theorem Stretch.refl {tokens : List Spanned} {i : Nat} : Stretch A B tokens i i :=
  fun _ hi hj => absurd hj (Nat.not_lt.mpr hi)

theorem Stretch.append {tokens : List Spanned} {i j k : Nat} (h : Stretch A B tokens i j)
    (h' : Stretch A B tokens j k) : Stretch A B tokens i k := by
  intro n hi hk
  rcases Nat.lt_or_ge n j with hj | hj
  · exact h n hi hj
  · exact h' n hj hk

theorem Stretch.one {tokens : List Spanned} {i : Nat} (h : Fine A B tokens i) :
    Stretch A B tokens i (i + 1) := by
  intro k hi hk
  obtain rfl : k = i := by omega
  exact h

/-- A step that stays where it is. -/
theorem PassesAt.stays {m : Parse α} {r : Parser → Except Error α}
    (hm : ∀ p, m p = (r p).map fun a => (a, p)) (hr : ∀ p p', Same p p' → r p = r p') :
    PassesAt A B m p where
  blind p' hs := by
    rw [hm p, hm p', ← hr p p' hs]
    cases r p with
    | error e => trivial
    | ok a => exact ⟨rfl, hs⟩
  reads a q h := by
    rw [hm p] at h
    cases hr : r p with
    | error e =>
      rw [hr] at h
      cases h
    | ok b =>
      rw [hr] at h
      cases h
      exact ⟨rfl, Nat.le_refl _, Stretch.refl⟩

theorem Passes.pure {a : α} : Passes A B (pure a : Parse α) := fun _ =>
  PassesAt.stays (r := fun _ => .ok a) (fun _ => rfl) fun _ _ _ => rfl

theorem Passes.throw {e : Error} : Passes A B (throw e : Parse α) := fun _ =>
  PassesAt.stays (r := fun _ => .error e) (fun _ => rfl) fun _ _ _ => rfl

theorem Passes.err {message : String} : Passes A B (err message : Parse α) := Passes.throw

theorem Passes.peekTok {n : Nat} : Passes A B (peekTok n) := fun _ =>
  PassesAt.stays (r := fun p => .ok (tokAt p.tokens (p.pos + n))) (fun _ => rfl)
    fun p p' h => by rw [h.tokAt, h.pos]

theorem Passes.curTok : Passes A B curTok := Passes.peekTok

theorem PassesAt.bind {m : Parse α} {f : α → Parse β} (hm : PassesAt A B m p)
    (hf : ∀ a q, m p = .ok (a, q) → PassesAt A B (f a) q) : PassesAt A B (m >>= f) p where
  blind p' hs := by
    change Alike ((m p).bind fun s => f s.1 s.2) ((m p').bind fun s => f s.1 s.2)
    have hb := hm.blind p' hs
    cases hr : m p with
    | error e =>
      rw [hr] at hb
      cases hr' : m p' with
      | error e' => trivial
      | ok s =>
        rw [hr'] at hb
        cases hb
    | ok s =>
      rw [hr] at hb
      cases hr' : m p' with
      | error e' =>
        rw [hr'] at hb
        cases hb
      | ok s' =>
        rw [hr'] at hb
        obtain ⟨ha, hq⟩ := hb
        change Alike (f s.1 s.2) (f s'.1 s'.2)
        rw [← ha]
        exact (hf s.1 s.2 hr).blind s'.2 hq
  reads b r hb := by
    change (m p).bind (fun s => f s.1 s.2) = _ at hb
    cases hrun : m p with
    | error e =>
      rw [hrun] at hb
      cases hb
    | ok s =>
      rw [hrun] at hb
      obtain ⟨htokens, hle, hfine⟩ := hm.reads s.1 s.2 hrun
      obtain ⟨htokens', hle', hfine'⟩ := (hf s.1 s.2 hrun).reads b r hb
      rw [htokens] at htokens' hfine'
      exact ⟨htokens', hle.trans hle', hfine.append hfine'⟩

theorem Passes.bind {m : Parse α} {f : α → Parse β} (hm : Passes A B m)
    (hf : ∀ a, Passes A B (f a)) : Passes A B (m >>= f) := fun p => (hm p).bind fun a q _ => hf a q

theorem Passes.ite {c : Prop} [Decidable c] {m m' : Parse α} (hm : Passes A B m)
    (hm' : Passes A B m') : Passes A B (if c then m else m') := by
  split
  · exact hm
  · exact hm'

theorem PassesAt.looks {f : Option Token → Parse α} (h : PassesAt A B (f (tok p)) p) :
    PassesAt A B (Parsing.curTok >>= f) p := (Passes.curTok p).bind fun t q ht => by
  cases ht
  exact h

theorem Passes.looks {f : Option Token → Parse α} (h : ∀ p, PassesAt A B (f (tok p)) p) :
    Passes A B (Parsing.curTok >>= f) := fun p => PassesAt.looks (h p)

/-- A step that asks how many tokens there are. -/
theorem passes_length : Passes A B (get >>= fun p => (Pure.pure p.tokens.length : Parse Nat)) :=
  fun _ => PassesAt.stays (r := fun p => .ok p.tokens.length) (fun _ => rfl) fun p p' h => by
    rw [h.length]

theorem PassesAt.length {f : Nat → Parse α} (h : PassesAt A B (f p.tokens.length) p) :
    PassesAt A B (get >>= fun p => f p.tokens.length) p := (passes_length p).bind fun n q hn => by
  cases hn
  exact h

theorem PassesAt.mono {A' : Token → Bool} {B' : Option Token → Prop} {m : Parse α}
    (h : PassesAt A B m p) (hA : ∀ t, A t = true → A' t = true) (hB : ∀ t, B t → B' t) :
    PassesAt A' B' m p where
  blind := h.blind
  reads a q hm := by
    obtain ⟨htokens, hle, hfine⟩ := h.reads a q hm
    refine ⟨htokens, hle, fun k hi hj => ?_⟩
    obtain ⟨t, ht, hat, hminus⟩ := hfine k hi hj
    exact ⟨t, ht, hA t hat, fun h => hB _ (hminus h)⟩

theorem ArmedAt.bind {m : Parse α} {f : α → Parse β} (hm : PassesAt A B m p)
    (hf : ∀ a q, m p = .ok (a, q) → ArmedAt A B (f a) q) : ArmedAt A B (m >>= f) p where
  toPassesAt := hm.bind fun a q h => (hf a q h).toPassesAt
  ready b r hb := by
    change (m p).bind (fun s => f s.1 s.2) = _ at hb
    cases hrun : m p with
    | error e =>
      rw [hrun] at hb
      cases hb
    | ok s =>
      rw [hrun] at hb
      exact (hf s.1 s.2 hrun).ready b r hb

theorem Armed.bind {m : Parse α} {f : α → Parse β} (hm : Armed A B m)
    (hf : ∀ a, Armed A B (f a)) : Armed A B (m >>= f) := fun p hp =>
  ArmedAt.bind (hm p hp).toPassesAt fun a q h => hf a q ((hm p hp).ready a q h)

theorem Armed.pure {a : α} : Armed A B (pure a : Parse α) := fun p hp =>
  ⟨Passes.pure p, fun b q h => by
    cases h
    exact hp⟩

theorem Armed.throw {e : Error} : Armed A B (throw e : Parse α) := fun p _ =>
  ⟨Passes.throw p, fun b q h => by cases h⟩

theorem Armed.err {message : String} : Armed A B (err message : Parse α) := Armed.throw

theorem Armed.ite {c : Prop} [Decidable c] {m m' : Parse α} (hm : Armed A B m)
    (hm' : Armed A B m') : Armed A B (if c then m else m') := by
  split
  · exact hm
  · exact hm'

theorem ArmedAt.looks {f : Option Token → Parse α} (h : ArmedAt A B (f (tok p)) p) :
    ArmedAt A B (Parsing.curTok >>= f) p := ArmedAt.bind (Passes.curTok p) fun t q ht => by
  cases ht
  exact h

theorem Passes.eat_of {t : Token} (hA : A t = true) (hne : t ≠ .minus) : Passes A B (eat t) := fun p => by
  constructor
  · intro p' hs
    rw [eat_run, eat_run, ← hs.tok]
    split
    · exact ⟨rfl, hs.next⟩
    · exact ⟨rfl, hs⟩
  · intro a q h
    rw [eat_run] at h
    split at h
    · rename_i ht
      cases h
      exact ⟨rfl, Nat.le_succ _, Stretch.one ⟨t, ht, hA, fun h => absurd h hne⟩⟩
    · cases h
      exact ⟨rfl, Nat.le_refl _, Stretch.refl⟩

theorem ArmedAt.length {f : Nat → Parse α} (h : ArmedAt A B (f p.tokens.length) p) :
    ArmedAt A B (get >>= fun p => f p.tokens.length) p := by
  change ArmedAt A B ((get >>= fun p => (Pure.pure p.tokens.length : Parse Nat)) >>= f) p
  refine ArmedAt.bind (passes_length p) fun n q hn => ?_
  cases hn
  exact h

theorem passes_next {t : Token} (ht : tok p = some t) (hfine : Fine A B p.tokens p.pos) :
    PassesAt A B advance p where
  blind p' hs := by
    rw [advance_some ht, advance_some (hs.tok ▸ ht)]
    exact ⟨rfl, hs.next⟩
  reads a q h := by
    rw [advance_some ht] at h
    cases h
    exact ⟨rfl, Nat.le_succ _, Stretch.one hfine⟩

theorem ready_next {t : Token} (ht : tok p = some t) (harms : B (some t)) :
    Ready B (next p) := by
  have hbefore : before p.tokens (p.pos + 1) = some t := by
    unfold before
    rw [if_neg (Nat.succ_ne_zero _), Nat.add_sub_cancel]
    exact ht
  change B (before p.tokens (p.pos + 1))
  rw [hbefore]
  exact harms

theorem PassesAt.over {f : Option Token → Parse α} {t : Token} (ht : tok p = some t)
    (hfine : Fine A B p.tokens p.pos) (hf : PassesAt A B (f (some t)) (next p)) :
    PassesAt A B (advance >>= f) p := (passes_next ht hfine).bind fun u q hu => by
  rw [advance_some ht] at hu
  cases hu
  exact hf

theorem ArmedAt.over {f : Option Token → Parse α} {t : Token} (ht : tok p = some t)
    (hfine : Fine A B p.tokens p.pos) (hf : ArmedAt A B (f (some t)) (next p)) :
    ArmedAt A B (advance >>= f) p := ArmedAt.bind (passes_next ht hfine) fun u q hu => by
  rw [advance_some ht] at hu
  cases hu
  exact hf

theorem advance_bind_none {f : Option Token → Parse α} (ht : tok p = none) :
    (advance >>= f) p = f none p := by
  change (Parsing.advance p).bind (fun s => f s.1 s.2) = _
  rw [advance_none ht]
  rfl

/-- A step that fails wherever the tokens are the same. -/
theorem PassesAt.fails {m : Parse α} (h : ∀ p', Same p p' → ∃ e, m p' = .error e) :
    PassesAt A B m p where
  blind p' hs := by
    obtain ⟨e, he⟩ := h p ⟨rfl, rfl, rfl⟩
    obtain ⟨e', he'⟩ := h p' hs
    rw [he, he']
    trivial
  reads a q hm := by
    obtain ⟨e, he⟩ := h p ⟨rfl, rfl, rfl⟩
    rw [he] at hm
    cases hm

/-- Whatever token it is, there is only an error behind it. -/
theorem passes_then_err {message : String} :
    Passes A B (advance >>= fun _ => err message : Parse α) := fun p => PassesAt.fails fun p' _ => by
  cases ht : tok p' with
  | none =>
    rw [advance_bind_none ht]
    exact ⟨_, rfl⟩
  | some t =>
    rw [advance_bind ht]
    exact ⟨_, rfl⟩

/-- A token in whose place there is only an error. -/
theorem passes_refused {α : Type} {t : Token} {message : String} {m : Parse α}
    (hm : Passes A B m) : Passes A B (do if ← eat t then err message else m) := fun p => by
  have hrun : ∀ p, (do if ← eat t then err message else m : Parse α) p =
      if tok p = some t then .error (.parseError message) else m p := by
    intro p
    change (eat t p).bind _ = _
    rw [eat_run]
    split <;> rfl
  by_cases ht : tok p = some t
  · refine PassesAt.fails fun p' hs => ?_
    rw [hrun, if_pos (hs.tok ▸ ht)]
    exact ⟨_, rfl⟩
  · constructor
    · intro p' hs
      rw [hrun, hrun, if_neg ht, if_neg (hs.tok ▸ ht)]
      exact (hm p).blind p' hs
    · intro a q h
      rw [hrun, if_neg ht] at h
      exact (hm p).reads a q h

theorem passes_octetMask {parts : UInt8} : Passes A B (octetMask parts) :=
  Passes.ite Passes.pure Passes.throw

theorem passes_shiftNet {fuel : Nat} {addr mask : UInt32} : Passes A B (shiftNet fuel addr mask) := by
  induction fuel generalizing addr mask with
  | zero =>
    unfold shiftNet
    exact Passes.ite Passes.throw Passes.pure
  | succ fuel ih =>
    unfold shiftNet
    exact Passes.ite ih Passes.pure

end

/-- The tokens that every primitive may read, and what may stand before a `-`. -/
class Admits (A : Token → Bool) (B : Option Token → Prop) : Prop where
  calm : ∀ t, calm t = true → A t = true
  arms : ∀ t, arms t = true → B (some t)

/-! ### Stepping over a token -/

section
variable {A : Token → Bool} {B : Option Token → Prop} [Admits A B] {α β : Type} {p : Parser}

theorem fine_mild {t : Token} (ht : tok p = some t) (hmild : mild t = true) :
    Fine A B p.tokens p.pos := by
  unfold mild at hmild
  rw [Bool.and_eq_true, bne_iff_ne] at hmild
  exact ⟨t, ht, Admits.calm B t hmild.1, fun h => absurd h hmild.2⟩

theorem fine_armed {t : Token} (ht : tok p = some t) (hcalm : calm t = true) (hp : Ready B p) :
    Fine A B p.tokens p.pos := ⟨t, ht, Admits.calm B t hcalm, fun _ => hp⟩

/-- A step that succeeds and reads one token. -/
theorem PassesAt.one {m : Parse α} {t : Token} {a : α} (ht : tok p = some t)
    (hmild : mild t = true) (hm : ∀ p', Same p p' → m p' = .ok (a, next p')) :
    PassesAt A B m p where
  blind p' hs := by
    rw [hm p ⟨rfl, rfl, rfl⟩, hm p' hs]
    exact ⟨rfl, hs.next⟩
  reads b q h := by
    rw [hm p ⟨rfl, rfl, rfl⟩] at h
    cases h
    exact ⟨rfl, Nat.le_succ _, Stretch.one (fine_mild ht hmild)⟩

theorem PassesAt.skip {f : Option Token → Parse α} {t : Token} (ht : tok p = some t)
    (hmild : mild t = true) (hf : PassesAt A B (f (some t)) (next p)) :
    PassesAt A B (advance >>= f) p := PassesAt.over ht (fine_mild ht hmild) hf

/-- Stepping over a token and refusing all but mild ones. -/
theorem Passes.advance {f : Option Token → Parse α} (hf : ∀ t, Passes A B (f t))
    (hbad : ∀ t, mild t = false → ∃ e, f (some t) = Parsing.err e) :
    Passes A B (advance >>= f) := fun p => by
  cases ht : tok p with
  | none =>
    constructor
    · intro p' hs
      rw [advance_bind_none ht, advance_bind_none (hs.tok ▸ ht)]
      exact (hf none p).blind p' hs
    · intro a q h
      rw [advance_bind_none ht] at h
      exact (hf none p).reads a q h
  | some t =>
    cases hm : mild t with
    | true => exact PassesAt.skip ht hm (hf _ _)
    | false =>
      obtain ⟨e, he⟩ := hbad t hm
      refine PassesAt.fails fun p' hs => ?_
      rw [advance_bind (hs.tok ▸ ht), he]
      exact ⟨_, rfl⟩

theorem Passes.eat {t : Token} (hmild : mild t = true) : Passes A B (eat t) := by
  unfold mild at hmild
  rw [Bool.and_eq_true, bne_iff_ne] at hmild
  exact Passes.eat_of (Admits.calm B t hmild.1) hmild.2

theorem Passes.expect {t : Token} (hmild : mild t = true) : Passes A B (expect t) :=
  (Passes.eat hmild).bind fun ok => by
    cases ok
    · exact Passes.curTok.bind fun _ => Passes.err
    · exact Passes.pure

theorem expect_none {t : Token} (ht : tok p ≠ some t) : ∃ e, expect t p = .error e := by
  change ∃ e, ((eat t p).bind _) = _
  rw [eat_run, if_neg ht]
  exact ⟨_, rfl⟩

theorem expect_some {t : Token} (ht : tok p = some t) : expect t p = .ok ((), next p) := by
  change ((eat t p).bind _) = _
  rw [eat_run, if_pos ht]
  rfl

/-- Expecting a token after which, or in whose place, a `-` may stand. -/
theorem ArmedAt.expect {t : Token} (hcalm : calm t = true) (harms : arms t = true)
    (hp : t = .minus → Ready B p) : ArmedAt A B (expect t) p := by
  by_cases ht : tok p = some t
  · refine ⟨⟨fun p' hs => ?_, fun a q h => ?_⟩, fun a q h => ?_⟩
    · rw [expect_some ht, expect_some (hs.tok ▸ ht)]
      exact ⟨rfl, hs.next⟩
    · rw [expect_some ht] at h
      cases h
      exact ⟨rfl, Nat.le_succ _, Stretch.one ⟨t, ht, Admits.calm B t hcalm, hp⟩⟩
    · rw [expect_some ht] at h
      cases h
      exact ready_next ht (Admits.arms A t harms)
  · refine ⟨PassesAt.fails fun p' hs => expect_none (hs.tok ▸ ht), fun a q h => ?_⟩
    obtain ⟨e, he⟩ := expect_none ht
    rw [he] at h
    cases h

/-- A table whose tokens are all calm. -/
theorem calm_of_table {α : Type} {f : Token → Option α} (hand : (f .and).isSome = false)
    (hor : (f .or).isSome = false) (hident : ∀ s, (f (.ident s)).isSome = false) {t : Token} {a : α}
    (h : f t = some a) : calm t = true := by
  cases t with
  | and => simp [h] at hand
  | or => simp [h] at hor
  | ident s =>
    have := hident s
    simp [h] at this
  | _ => rfl

theorem mild_of_table {α : Type} {f : Token → Option α} (hand : (f .and).isSome = false)
    (hor : (f .or).isSome = false) (hminus : (f .minus).isSome = false)
    (hident : ∀ s, (f (.ident s)).isSome = false) {t : Token} {a : α} (h : f t = some a) :
    mild t = true := by
  unfold mild
  rw [calm_of_table hand hor hident h, Bool.true_and, bne_iff_ne]
  rintro rfl
  simp [h] at hminus

/-! ### Numbers -/

theorem parseU32_armed : ArmedAt A B parseU32 p := by
  unfold parseU32
  refine ArmedAt.bind (Passes.curTok p) fun t q hq => ?_
  cases hq
  refine ⟨Passes.advance (fun t => ?_) (fun t hbad => ?_) p, fun n q h => ?_⟩
  · split
    · exact Passes.ite Passes.err Passes.pure
    · exact Passes.err
  · cases t <;> first | exact ⟨_, rfl⟩ | cases hbad
  · cases ht : tok p with
    | none =>
      rw [advance_bind_none ht] at h
      cases h
    | some t =>
      rw [advance_bind ht] at h
      cases t with
      | num v =>
        change (if v > 0xffffffff then _ else _ : Parse UInt32) (next p) = _ at h
        split at h
        · cases h
        · cases h
          exact ready_next ht (Admits.arms A _ rfl)
      | _ => cases h

theorem passes_parseU32 : Passes A B parseU32 := fun _ => parseU32_armed.toPassesAt

theorem parseU16_armed : ArmedAt A B parseU16 p := by
  have hu : ArmedAt A B parseU32 p := parseU32_armed
  refine ArmedAt.bind hu.toPassesAt fun n q h => ?_
  have hq := hu.ready n q h
  split
  · exact Armed.err q hq
  · exact Armed.pure q hq

theorem passes_parseU16 : Passes A B parseU16 := fun _ => parseU16_armed.toPassesAt

end

/-! ### Offset expressions -/

section
variable {A : Token → Bool} {B : Option Token → Prop}

/-- The operators of a level: an operand may follow each, and applying it reads nothing. -/
structure OpsPass (A : Token → Bool) (B : Option Token → Prop)
    (ops : Token → Option (Int → Int → Parse Int)) : Prop where
  calm : ∀ t apply, ops t = some apply → calm t = true
  arms : ∀ t apply, ops t = some apply → arms t = true
  armed : ∀ t apply, ops t = some apply → ∀ lhs rhs, Armed A B (apply lhs rhs)

theorem armed_overflow {v : Int} : Armed A B (overflow v) := by
  unfold overflow checkedOr
  split
  · exact Armed.pure
  · exact Armed.err

theorem armed_nestedOffset {cost : Nat} {f : Parse Int} (h : Armed A B f) :
    Armed A B (nestedOffset cost f) := by
  have hrun : ∀ p, nestedOffset cost f p =
      if p.depth + cost > maxOffsetDepth then .error (.parseError "offset expression nested too deeply")
      else (f { p with depth := p.depth + cost }).map fun r =>
        (r.1, { r.2 with depth := r.2.depth - cost }) := by
    intro p
    change (if p.depth + cost > maxOffsetDepth then _ else _ : Parse Int) _ = _
    split
    · rfl
    · change (f { p with depth := p.depth + cost }).bind _ = _
      cases f { p with depth := p.depth + cost } <;> rfl
  intro p hp
  have hf := h { p with depth := p.depth + cost } hp
  refine ⟨⟨fun p' hs => ?_, fun a q hq => ?_⟩, fun a q hq => ?_⟩
  · have hs' : Same { p with depth := p.depth + cost } { p' with depth := p'.depth + cost } :=
      ⟨hs.tokens, hs.pos, congrArg (· + cost) hs.depth⟩
    have hb := hf.blind _ hs'
    rw [hrun, hrun, hs.depth]
    rw [hs.depth] at hb
    split
    · trivial
    · cases h1 : f { p with depth := p'.depth + cost } with
      | error e =>
        rw [h1] at hb
        cases h2 : f { p' with depth := p'.depth + cost } with
        | error e' => trivial
        | ok r =>
          rw [h2] at hb
          cases hb
      | ok r =>
        rw [h1] at hb
        cases h2 : f { p' with depth := p'.depth + cost } with
        | error e' =>
          rw [h2] at hb
          cases hb
        | ok r' =>
          rw [h2] at hb
          exact ⟨hb.1, hb.2.tokens, hb.2.pos, congrArg (· - cost) hb.2.depth⟩
  all_goals
    rw [hrun] at hq
    split at hq
    · cases hq
    · cases hr : f { p with depth := p.depth + cost } with
      | error e =>
        rw [hr] at hq
        cases hq
      | ok r =>
        rw [hr] at hq
        cases hq
        first
          | exact hf.reads r.1 r.2 hr
          | exact hf.ready r.1 r.2 hr

theorem passes_mulOps : OpsPass A B mulOps where
  calm t apply h := by cases t <;> first | rfl | cases h
  arms t apply h := by cases t <;> first | rfl | cases h
  armed t apply h lhs rhs := by
    unfold mulOps at h
    split at h <;> cases h
    · exact armed_overflow
    · exact Armed.ite Armed.err armed_overflow

theorem passes_addOps : OpsPass A B addOps where
  calm t apply h := by cases t <;> first | rfl | cases h
  arms t apply h := by cases t <;> first | rfl | cases h
  armed t apply h lhs rhs := by
    unfold addOps at h
    split at h <;> cases h
    · exact armed_overflow
    · exact armed_overflow

theorem passes_shiftOps : OpsPass A B shiftOps where
  calm t apply h := by cases t <;> first | rfl | cases h
  arms t apply h := by cases t <;> first | rfl | cases h
  armed t apply h lhs rhs := by
    unfold shiftOps at h
    split at h <;> cases h
    · exact Armed.ite (Armed.ite Armed.err Armed.pure) Armed.err
    · exact Armed.ite Armed.pure Armed.err

theorem passes_andOps : OpsPass A B andOps where
  calm t apply h := by cases t <;> first | rfl | cases h
  arms t apply h := by cases t <;> first | rfl | cases h
  armed t apply h lhs rhs := by
    unfold andOps at h
    split at h <;> cases h
    exact Armed.pure

theorem passes_xorOps : OpsPass A B xorOps where
  calm t apply h := by cases t <;> first | rfl | cases h
  arms t apply h := by cases t <;> first | rfl | cases h
  armed t apply h lhs rhs := by
    unfold xorOps at h
    split at h <;> cases h
    exact Armed.pure

theorem passes_orOps : OpsPass A B orOps where
  calm t apply h := by cases t <;> first | rfl | cases h
  arms t apply h := by cases t <;> first | rfl | cases h
  armed t apply h lhs rhs := by
    unfold orOps at h
    split at h <;> cases h
    exact Armed.pure

end

section
variable {A : Token → Bool} {B : Option Token → Prop} [Admits A B] {p : Parser}

section
variable {ops : Token → Option (Int → Int → Parse Int)} {operand : Parse Int}

theorem armed_levelLoop (hops : OpsPass A B ops) (hnext : Armed A B operand) (fuel : Nat) :
    ∀ lhs, Armed A B (levelLoop ops operand fuel lhs) := by
  induction fuel with
  | zero =>
    intro lhs p hp
    unfold levelLoop
    refine ArmedAt.looks ?_
    split
    · exact Armed.pure p hp
    · exact Armed.throw p hp
  | succ fuel ih =>
    intro lhs p hp
    unfold levelLoop
    refine ArmedAt.looks ?_
    split
    · exact Armed.pure p hp
    · rename_i apply happly
      obtain ⟨t, ht, hop⟩ := Option.bind_eq_some_iff.mp happly
      refine ArmedAt.over ht (fine_armed ht (hops.calm t apply hop) hp) ?_
      refine Armed.bind hnext (fun rhs => ?_) _ (ready_next ht (Admits.arms A t (hops.arms t apply hop)))
      exact (hops.armed t apply hop lhs rhs).bind fun v => ih v

theorem armed_level (hops : OpsPass A B ops) (hnext : Armed A B operand) :
    Armed A B (level ops operand) := by
  refine hnext.bind fun lhs => ?_
  intro p hp
  exact ArmedAt.length (f := fun n => levelLoop ops operand n lhs)
    (armed_levelLoop hops hnext _ lhs p hp)

end

theorem armed_parseOffsetOr {atom : Parse Int} (h : Armed A B atom) :
    Armed A B (parseOffsetOr atom) :=
  armed_level passes_orOps (armed_level passes_xorOps (armed_level passes_andOps
    (armed_level passes_shiftOps (armed_level passes_addOps (armed_level passes_mulOps h)))))

theorem armed_parseOffsetAtom (fuel : Nat) : Armed A B (parseOffsetAtom fuel) := by
  induction fuel with
  | zero => exact Armed.throw
  | succ fuel ih =>
    intro p hp
    unfold parseOffsetAtom
    refine ArmedAt.looks ?_
    split
    · rename_i ht
      refine ArmedAt.over ht (fine_mild ht rfl) ?_
      have hval := @armed_nestedOffset A B offsetParenCost _ (armed_parseOffsetOr ih) (next p)
        (ready_next ht (Admits.arms A _ rfl))
      refine ArmedAt.bind hval.toPassesAt fun v q hv => ?_
      have hclose : ArmedAt A B (expect .rParen) q := ArmedAt.expect rfl rfl (by simp)
      exact ArmedAt.bind hclose.toPassesAt fun _ r hr => Armed.pure r (hclose.ready _ r hr)
    · rename_i ht
      refine ArmedAt.over ht (fine_armed ht rfl hp) ?_
      exact Armed.bind (armed_nestedOffset ih) (fun v => armed_overflow) _
        (ready_next ht (Admits.arms A _ rfl))
    · have hn : ArmedAt A B parseU32 p := parseU32_armed
      exact ArmedAt.bind hn.toPassesAt fun n q hq => Armed.pure q (hn.ready n q hq)

theorem armed_parseOffsetExpr : Armed A B parseOffsetExpr :=
  (armed_parseOffsetOr (armed_parseOffsetAtom _)).bind fun _ => Armed.ite Armed.pure Armed.err

/-! ### Byte access -/

theorem passes_parseSize : Passes A B parseSize := by
  refine (Passes.eat (by rfl)).bind fun colon => Passes.ite ?_ Passes.pure
  refine Passes.looks fun p => ?_
  split
  · exact PassesAt.skip ‹_› (by rfl) (Passes.pure _)
  · exact PassesAt.skip ‹_› (by rfl) (Passes.pure _)
  · exact PassesAt.skip ‹_› (by rfl) (Passes.pure _)
  · exact Passes.err p

theorem parseBrackets_armed : ArmedAt A B parseBrackets p := by
  have hopen : ArmedAt A B (expect .lBracket) p := ArmedAt.expect rfl rfl (by simp)
  refine ArmedAt.bind hopen.toPassesAt fun _ q hq => ?_
  refine ArmedAt.bind (armed_parseOffsetExpr q (hopen.ready _ q hq)).toPassesAt fun v r _ => ?_
  split
  · exact ⟨Passes.err r, fun a s h => by cases h⟩
  · refine ArmedAt.bind (passes_parseSize r) fun size s _ => ?_
    have hclose : ArmedAt A B (expect .rBracket) s := ArmedAt.expect rfl rfl (by simp)
    exact ArmedAt.bind hclose.toPassesAt fun _ u hu => Armed.pure u (hclose.ready _ u hu)

theorem passes_parseByteLoad {layer : Layer} : Passes A B (parseByteLoad layer) := fun _ =>
  (parseBrackets_armed.toPassesAt).bind fun _ q _ => Passes.pure q

theorem armed_parseAluOps (fuel : Nat) : ∀ ops, Armed A B (parseAluOps fuel ops) := by
  induction fuel with
  | zero =>
    intro ops p hp
    unfold parseAluOps
    refine ArmedAt.looks ?_
    split
    · exact Armed.pure p hp
    · exact Armed.throw p hp
  | succ fuel ih =>
    intro ops p hp
    unfold parseAluOps
    refine ArmedAt.looks ?_
    split
    · exact Armed.pure p hp
    · rename_i op hop
      obtain ⟨t, ht, hu⟩ := Option.bind_eq_some_iff.mp hop
      refine ArmedAt.over ht (fine_armed ht (calm_of_table rfl rfl (fun _ => rfl) hu) hp) ?_
      have hn : ArmedAt A B parseU32 (next p) := parseU32_armed
      exact ArmedAt.bind hn.toPassesAt fun operand q hq => ih _ q (hn.ready operand q hq)

theorem passes_parseCmpop : Passes A B parseCmpop := by
  refine Passes.curTok.bind fun _ => Passes.advance (fun t => ?_) fun t hbad => ?_
  · split <;> first | exact Passes.pure | exact Passes.err
  · cases t <;> first | exact ⟨_, rfl⟩ | cases hbad

theorem passes_parseCmpRhs : Passes A B parseCmpRhs := by
  refine Passes.looks fun p => PassesAt.bind (Passes.peekTok p) fun u q hq => ?_
  cases hq
  split
  · rename_i layer hlayer _
    obtain ⟨t, ht, hv⟩ := Option.bind_eq_some_iff.mp hlayer
    exact PassesAt.skip ht (mild_of_table rfl rfl rfl (fun _ => rfl) hv)
      ((passes_parseByteLoad.bind fun _ => Passes.pure) _)
  · exact (passes_parseU32.bind fun _ => Passes.pure) p

theorem passes_parseByteAccess {layer : Layer} : Passes A B (parseByteAccess layer) := fun p => by
  have hopen : ArmedAt A B parseBrackets p := parseBrackets_armed
  refine hopen.toPassesAt.bind fun r q hq => ?_
  refine PassesAt.length (f := fun n => parseAluOps n [] >>= _) ?_
  refine (armed_parseAluOps _ [] q (hopen.ready r q hq)).toPassesAt.bind fun ops s _ => ?_
  exact (passes_parseCmpop.bind fun _ => passes_parseCmpRhs.bind fun _ => Passes.pure) s

/-! ### Addresses and ports -/

section
variable {dir : Dir}

theorem passes_parseIp : Passes A B parseIp := by
  refine Passes.curTok.bind fun _ => Passes.advance (fun t => ?_) fun t hbad => ?_
  · split
    · exact Passes.pure
    · exact Passes.pure
    · exact Passes.ite Passes.pure Passes.err
    · exact Passes.err
  · cases t <;> first | exact ⟨_, rfl⟩ | cases hbad

theorem passes_parseMacAddr : Passes A B parseMacAddr := by
  refine Passes.curTok.bind fun _ => Passes.advance (fun t => ?_) fun t hbad => ?_
  · split
    · exact Passes.pure
    · exact Passes.err
  · cases t <;> first | exact ⟨_, rfl⟩ | cases hbad

/-- The offset of the `/` goes into the message only. -/
theorem passes_parsePrefixLen {family : String} {max : UInt64} :
    Passes A B (parsePrefixLen family max) := fun p => by
  cases hb : tokAt p.tokens (p.pos - 1) with
  | none =>
    refine PassesAt.fails fun p' hs => ?_
    rw [hs.tokAt, hs.pos, tokAt, Option.map_eq_none_iff] at hb
    rw [parsePrefixLen, get_bind, hb]
    exact ⟨_, rfl⟩
  | some u =>
    have hslash : ∀ p', Same p p' → ∃ slash, p'.tokens[p'.pos - 1]? = some slash := by
      intro p' hs
      rw [hs.tokAt, hs.pos, tokAt, Option.map_eq_some_iff] at hb
      exact hb.imp fun slash h => h.1
    cases ht : tok p with
    | none =>
      refine PassesAt.fails fun p' hs => ?_
      obtain ⟨slash, h⟩ := hslash p' hs
      rw [parsePrefixLen, get_bind, h]
      simp only [advance_bind_none (hs.tok ▸ ht)]
      exact ⟨_, rfl⟩
    | some t =>
      have hstep : ∀ p', Same p p' → tok p' = some t := fun p' hs => hs.tok ▸ ht
      cases t with
      | num n =>
        by_cases hle : n ≤ max
        · have hok : ∀ p', Same p p' → parsePrefixLen family max p' = .ok (n.toUInt8, next p') := by
            intro p' hs
            obtain ⟨slash, h⟩ := hslash p' hs
            rw [parsePrefixLen, get_bind, h]
            simp only [advance_bind (hstep p' hs), if_pos hle]
            rfl
          exact PassesAt.one ht rfl hok
        · refine PassesAt.fails fun p' hs => ?_
          obtain ⟨slash, h⟩ := hslash p' hs
          rw [parsePrefixLen, get_bind, h]
          simp only [advance_bind (hstep p' hs), if_neg hle]
          exact ⟨_, rfl⟩
      | _ =>
        refine PassesAt.fails fun p' hs => ?_
        obtain ⟨slash, h⟩ := hslash p' hs
        rw [parsePrefixLen, get_bind, h]
        simp only [advance_bind (hstep p' hs)]
        exact ⟨_, rfl⟩

theorem passes_slash {α : Type} {m m' : Parse α} (hm : Passes A B m) (hm' : Passes A B m') :
    Passes A B (do if ← eat .slash then m else m') :=
  (Passes.eat (by rfl)).bind fun _ => Passes.ite hm hm'

theorem passes_parseHostAddr : Passes A B (parseHostAddr dir) := by
  refine passes_parseIp.bind fun addr => ?_
  split
  · exact Passes.pure
  · exact passes_slash (passes_parsePrefixLen.bind fun _ => Passes.ite Passes.err Passes.pure) Passes.pure

theorem passes_parseHost : Passes A B (parseHost dir) := by
  refine Passes.looks fun p => ?_
  split
  · split
    · exact PassesAt.skip ‹_› (by rfl) ((passes_octetMask.bind fun _ => Passes.pure) _)
    · exact passes_parseHostAddr p
  · exact passes_parseHostAddr p

theorem passes_parseNet6 {addr : Ipv6Addr} : Passes A B (parseNet6 addr dir) :=
  passes_slash (passes_parsePrefixLen.bind fun _ => Passes.ite Passes.err Passes.pure)
    (Passes.ite Passes.err Passes.pure)

theorem passes_parseNet4 {addr : Ipv4Addr} {parts : UInt8} : Passes A B (parseNet4 addr parts dir) := by
  refine passes_refused ?_
  refine passes_slash (passes_parsePrefixLen.bind fun _ => Passes.ite Passes.err Passes.pure) ?_
  refine (Passes.eat (by rfl)).bind fun _ => Passes.ite ?_ ?_
  · refine Passes.advance (fun t => ?_) fun t hbad => ?_
    · split
      · exact Passes.ite Passes.err Passes.pure
      · exact Passes.err
    · cases t <;> first | exact ⟨_, rfl⟩ | cases hbad
  · exact passes_octetMask.bind fun _ => Passes.pure

theorem passes_parseNet : Passes A B (parseNet dir) := by
  refine Passes.curTok.bind fun _ => Passes.advance (fun t => ?_) fun t hbad => ?_
  · split
    · exact passes_parseNet4
    · exact Passes.ite (passes_shiftNet.bind fun _ => Passes.pure) Passes.err
    · exact passes_parseNet6
    · exact Passes.err
  · cases t <;> first | exact ⟨_, rfl⟩ | cases hbad

theorem passes_parsePort {proto : Option Proto} : Passes A B (parsePort dir proto) :=
  passes_parseU16.bind fun _ => Passes.pure

theorem passes_parsePortrange {proto : Option Proto} : Passes A B (parsePortrange dir proto) := by
  intro p
  have hlo : ArmedAt A B parseU16 p := parseU16_armed
  refine hlo.toPassesAt.bind fun lo q hq => ?_
  have hminus : ArmedAt A B (expect .minus) q := ArmedAt.expect rfl rfl fun _ => hlo.ready lo q hq
  exact hminus.toPassesAt.bind fun _ r _ => (passes_parseU16.bind fun _ => Passes.pure) r

theorem passes_portOr {proto : Proto} {otherwise : Parse Primitive} (h : Passes A B otherwise) :
    Passes A B (portOr dir proto otherwise) :=
  (Passes.eat (by rfl)).bind fun _ => Passes.ite passes_parsePort
    ((Passes.eat (by rfl)).bind fun _ => Passes.ite passes_parsePortrange h)

/-- What follows a direction qualifier. -/
theorem passes_parseAfterDir : Passes A B (parseAfterDir dir) := by
  have hproto : ∀ p t proto name, tok p = some t → mild t = true →
      PassesAt A B (parseDirProto dir proto name) p := fun p t proto name ht hl =>
    PassesAt.skip ht hl (passes_portOr (Passes.curTok.bind fun _ => Passes.err) _)
  refine Passes.looks fun p => ?_
  split
  · exact PassesAt.skip ‹_› (by rfl) (passes_parseHost _)
  · exact PassesAt.skip ‹_› (by rfl) (passes_parseNet _)
  · exact PassesAt.skip ‹_› (by rfl) (passes_parsePort _)
  · exact PassesAt.skip ‹_› (by rfl) (passes_parsePortrange _)
  · exact hproto p _ _ _ ‹_› (by rfl)
  · exact hproto p _ _ _ ‹_› (by rfl)
  · exact hproto p _ _ _ ‹_› (by rfl)
  · exact passes_parseHost p
  · exact passes_parseHost p
  · exact passes_parseHost p
  · exact Passes.err p

end

/-! ### Primitives -/

theorem passes_parseProtoNum : Passes A B parseProtoNum := by
  refine Passes.looks fun p => ?_
  split
  · rename_i n hn
    obtain ⟨t, ht, hu⟩ := Option.bind_eq_some_iff.mp hn
    exact PassesAt.skip ht (mild_of_table rfl rfl rfl (fun _ => rfl) hu) (Passes.pure _)
  · exact (passes_parseU32.bind fun _ => Passes.ite Passes.err Passes.pure) p

theorem passes_parseLen {op : CmpOp} : Passes A B (parseLen op) :=
  passes_parseU32.bind fun _ => Passes.pure

theorem passes_byteAccessOr {layer : Layer} {otherwise : Parse Primitive} (h : Passes A B otherwise) :
    Passes A B (byteAccessOr layer otherwise) :=
  Passes.curTok.bind fun _ => Passes.ite passes_parseByteAccess h

theorem passes_optNum : Passes A B optNum := by
  refine Passes.looks fun p => ?_
  split
  · exact PassesAt.skip ‹_› (by rfl) (Passes.pure _)
  · exact Passes.pure p

theorem passes_parseIpPrim : Passes A B parseIpPrim := by
  refine passes_byteAccessOr ((Passes.eat (by rfl)).bind fun _ => Passes.ite ?_ ?_)
  · exact passes_parseProtoNum.bind fun _ => Passes.pure
  refine (Passes.eat (by rfl)).bind fun _ => Passes.ite ?_ ?_
  · exact passes_parseProtoNum.bind fun _ => Passes.pure
  refine (Passes.eat (by rfl)).bind fun _ => Passes.ite Passes.pure ?_
  exact (Passes.eat (by rfl)).bind fun _ => Passes.ite Passes.pure Passes.pure

theorem passes_parseIp6Prim : Passes A B parseIp6Prim := by
  refine passes_byteAccessOr ((Passes.eat (by rfl)).bind fun _ => Passes.ite ?_ ?_)
  · exact passes_parseProtoNum.bind fun _ => Passes.pure
  refine (Passes.eat (by rfl)).bind fun _ => Passes.ite ?_ ?_
  · exact passes_parseProtoNum.bind fun _ => Passes.pure
  exact (Passes.eat (by rfl)).bind fun _ => Passes.ite Passes.pure Passes.pure

theorem passes_parsePppoes : Passes A B parsePppoes := by
  refine Passes.looks fun p => ?_
  split
  · split
    · exact Passes.err p
    · exact PassesAt.skip ‹_› (by rfl) (Passes.pure _)
  · exact Passes.pure p

end

/-! ### Whole filters -/

theorem passes_parseLogicalOp {B : Option Token → Prop} : Passes known B parseLogicalOp := by
  refine (Passes.eat_of (by rfl) (by simp)).bind fun _ => Passes.ite Passes.pure ?_
  refine (Passes.eat_of (by rfl) (by simp)).bind fun _ => Passes.ite Passes.pure ?_
  refine Passes.curTok.bind fun t => ?_
  split
  · exact Passes.pure
  · exact Passes.pure

section
variable {B : Option Token → Prop} [Admits known B] {p : Parser}

theorem passes_parseDir : Passes known B parseDir := by
  refine Passes.looks fun p => ?_
  split
  · refine PassesAt.skip ‹_› (by rfl) ?_
    refine (Passes.eat_of (by rfl) (by simp)).bind (fun joined => ?_) _
    refine Passes.looks fun q => ?_
    split
    · rename_i hdst
      rw [Bool.and_eq_true, decide_eq_true_iff] at hdst
      exact PassesAt.skip hdst.2 (by rfl) (Passes.pure _)
    · refine (Passes.eat_of (by rfl) (by simp)).bind (fun joined => ?_) _
      refine Passes.looks fun r => ?_
      split
      · rename_i hdst
        rw [Bool.and_eq_true, decide_eq_true_iff] at hdst
        exact PassesAt.skip hdst.2 (by rfl) (Passes.pure _)
      · exact Passes.pure r
  · exact PassesAt.skip ‹_› (by rfl) (Passes.pure _)
  · exact Passes.pure p

theorem passes_parseEtherArg : Passes known B parseEtherArg := by
  refine Passes.curTok.bind fun _ => Passes.ite passes_parseByteAccess ?_
  refine passes_parseDir.bind fun dir => Passes.looks fun p => ?_
  cases ht : tok p with
  | none => exact Passes.err p
  | some t =>
    have hskip : ∀ f : Option Token → Parse Primitive, mild t = true → Passes known B (f (some t)) →
        PassesAt known B (advance >>= f) p := fun f hl hf => PassesAt.skip ht hl (hf _)
    cases t with
    | host => exact hskip _ rfl (passes_parseMacAddr.bind fun _ => Passes.pure)
    | mac => exact (passes_parseMacAddr.bind fun _ => Passes.pure) p
    | proto =>
      refine hskip _ rfl (Passes.looks fun q => ?_)
      split
      · rename_i et het
        obtain ⟨t, ht, hu⟩ := Option.bind_eq_some_iff.mp het
        exact PassesAt.skip ht (mild_of_table rfl rfl rfl (fun _ => rfl) hu) (Passes.pure _)
      · exact (passes_parseU32.bind fun _ => Passes.pure) q
    | broadcast | multicast | ip | ip6 | arp | rarp => exact hskip _ rfl Passes.pure
    | _ => exact Passes.err p

theorem passes_parsePrimitive : Passes known B parsePrimitive := by
  refine Passes.looks fun p => ?_
  cases ht : tok p with
  | none => exact Passes.err p
  | some t =>
    have hskip : ∀ f : Option Token → Parse Primitive, mild t = true → Passes known B (f (some t)) →
        PassesAt known B (advance >>= f) p := fun f hl hf => PassesAt.skip ht hl (hf _)
    cases t with
    | less | greater => exact hskip _ rfl passes_parseLen
    | len => exact hskip _ rfl (passes_parseCmpop.bind fun _ => passes_parseLen)
    | ip => exact hskip _ rfl passes_parseIpPrim
    | ip6 => exact hskip _ rfl passes_parseIp6Prim
    | icmp | icmp6 => exact hskip _ rfl (passes_byteAccessOr Passes.pure)
    | sctp => exact hskip _ rfl (passes_portOr Passes.pure)
    | tcp | udp => exact hskip _ rfl (passes_byteAccessOr (passes_portOr Passes.pure))
    | proto => exact hskip _ rfl (passes_parseU32.bind fun _ => Passes.pure)
    | vlan | mpls => exact hskip _ rfl (passes_optNum.bind fun _ => Passes.pure)
    | pppoes => exact hskip _ rfl passes_parsePppoes
    | gateway => exact hskip _ rfl passes_then_err
    | ether => exact hskip _ rfl passes_parseEtherArg
    | src | dst => exact (passes_parseDir.bind fun _ => passes_parseAfterDir) p
    | host => exact hskip _ rfl passes_parseHost
    | net => exact hskip _ rfl passes_parseNet
    | port => exact hskip _ rfl passes_parsePort
    | portRange => exact hskip _ rfl passes_parsePortrange
    | ipv4 _ parts => exact Passes.ite Passes.err passes_parseHost p
    | ipv6 => exact passes_parseHost p
    | lBracket => exact passes_parseByteAccess p
    | broadcast | multicast | arp | rarp | igmp | ah | esp | pim | igrp | vrrp | pppoed
    | inbound | outbound => exact hskip _ rfl Passes.pure
    | _ => exact Passes.err p

theorem passes_eatNots (fuel : Nat) : Passes known B (eatNots fuel) := by
  have hnot : Passes known B eatNot :=
    (Passes.eat (by rfl)).bind fun _ => Passes.ite Passes.pure (Passes.eat (by rfl))
  induction fuel with
  | zero => exact Passes.throw
  | succ fuel ih => exact hnot.bind fun _ => Passes.ite (ih.bind fun _ => Passes.pure) Passes.pure

theorem passes_foldOperand (stack : List Open) (operand : Expr) (nots : Nat) (left : Left) :
    Passes known B (foldOperand stack operand nots left) := by
  induction stack generalizing operand nots left with
  | nil =>
    unfold foldOperand
    refine passes_parseLogicalOp.bind fun op => ?_
    split
    · exact Passes.pure
    · exact Passes.pure
  | cons outer stack ih =>
    unfold foldOperand
    refine passes_parseLogicalOp.bind fun op => ?_
    split
    · exact Passes.pure
    · exact (Passes.expect (by rfl)).bind fun _ => ih _ _ _

theorem passes_exprLoop {prim : Parse Primitive} (hprim : Passes known B prim) (fuel : Nat)
    (stack : List Open) (left : Left) : Passes known B (exprLoop prim fuel stack left) := by
  induction fuel generalizing stack left with
  | zero => exact Passes.throw
  | succ fuel ih =>
    unfold exprLoop
    intro p
    refine PassesAt.length (f := fun n => eatNots (n + 1) >>= _) ?_
    refine ((passes_eatNots _).bind fun nots => ?_) p
    refine (Passes.eat (by rfl)).bind fun _ => Passes.ite (Passes.ite Passes.err (ih _ _)) ?_
    refine hprim.bind fun operand => (passes_foldOperand _ _ _ _).bind fun folded => ?_
    split
    · exact ih _ _
    · exact Passes.pure

theorem passes_parseExpr : Passes known B (parseExpr parsePrimitive) := fun _ =>
  PassesAt.length (f := fun n => exprLoop parsePrimitive (n + 1) [] none)
    (passes_exprLoop passes_parsePrimitive _ _ _ _)

end

/-- A token that arms stands before. -/
def Behind (t : Option Token) : Prop := ∃ u, t = some u ∧ arms u = true

instance : Admits known Behind where
  calm t h := by
    cases t with
    | ident name => cases h
    | _ => rfl
  arms t h := ⟨t, rfl, h⟩

/-- Filters of the same tokens read as the same tree, or are both refused. -/
theorem parse_words {tokens tokens' : List Spanned} (h : words tokens = words tokens') :
    (parse tokens).toOption = (parse tokens').toOption := by
  have hs : Same ⟨tokens, 0, 0⟩ ⟨tokens', 0, 0⟩ := ⟨h, rfl, rfl⟩
  have hb := (passes_parseExpr (B := Behind) ⟨tokens, 0, 0⟩).blind _ hs
  have hlen := hs.length
  simp only at hlen
  unfold parse parseWith
  cases hr : parseExpr parsePrimitive ⟨tokens, 0, 0⟩ with
  | error e =>
    rw [hr] at hb
    cases hr' : parseExpr parsePrimitive ⟨tokens', 0, 0⟩ with
    | error e' => rfl
    | ok s =>
      rw [hr'] at hb
      cases hb
  | ok r =>
    rw [hr] at hb
    cases hr' : parseExpr parsePrimitive ⟨tokens', 0, 0⟩ with
    | error e' =>
      rw [hr'] at hb
      cases hb
    | ok r' =>
      rw [hr'] at hb
      change Except.toOption (if r.2.pos < tokens.length then _ else _) =
        Except.toOption (if r'.2.pos < tokens'.length then _ else _)
      rw [hb.2.pos, hlen]
      split
      · rfl
      · rw [hb.1]

/-- A filter that parses has no unknown word, and before each `-` what may stand there. -/
theorem parse_fine {tokens : List Spanned} {e : Expr} (h : parse tokens = .ok e) :
    Stretch known Behind tokens 0 tokens.length := by
  unfold parse parseWith at h
  cases hr : parseExpr parsePrimitive ⟨tokens, 0, 0⟩ with
  | error e =>
    rw [hr] at h
    cases h
  | ok r =>
    rw [hr] at h
    change (if r.2.pos < tokens.length then _ else _ : Except Error Expr) = _ at h
    split at h
    · cases h
    · rename_i hend
      have hfine := ((passes_parseExpr (B := Behind) ⟨tokens, 0, 0⟩).reads r.1 r.2 hr).2.2
      exact fun k hi hk => hfine k hi (Nat.lt_of_lt_of_le hk (Nat.le_of_not_lt hend))

end PktBaffle.Proofs.Parser
