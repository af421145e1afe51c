import PktBaffle.Proofs.Parser.Steps

namespace PktBaffle.Proofs.Parser
open PktBaffle.Lexer Parsing

/-! ### The grammar -/

/-- The nonterminals of the module grammar. -/
inductive Cat where
  | expr
  | notExpr
  | atom

/-- The token at a position. -/
def tokAt (tokens : List Spanned) (i : Nat) : Option Token := tokens[i]?.map (·.token)

def isNot (t : Option Token) : Prop := t = some .not ∨ t = some .bang

instance (t : Option Token) : Decidable (isNot t) :=
  inferInstanceAs (Decidable (t = some .not ∨ t = some .bang))

/-- `Derives prim tokens c d i j e`: with `d` parentheses open around it, the nonterminal `c`
derives the tokens from `i` up to `j`, and `e` is the tree. A primitive reaches as far as
`prim` reads. -/
inductive Derives (prim : Parse Primitive) (tokens : List Spanned) :
    Cat → Nat → Nat → Nat → Expr → Prop where
  | primitive {d i j : Nat} {x : Primitive} (h : prim ⟨tokens, i, 0⟩ = .ok (x, ⟨tokens, j, 0⟩)) :
    Derives prim tokens .atom d i j (.primitive x)
  | paren {d i j : Nat} {e : Expr} (hopen : tokAt tokens i = some .lParen)
    (hd : d < maxParenDepth) (h : Derives prim tokens .expr (d + 1) (i + 1) j e)
    (hclose : tokAt tokens j = some .rParen) : Derives prim tokens .atom d i (j + 1) e
  | atom {d i j : Nat} {e : Expr} (h : Derives prim tokens .atom d i j e) :
    Derives prim tokens .notExpr d i j e
  | not {d i j : Nat} {e : Expr} (hnot : isNot (tokAt tokens i))
    (h : Derives prim tokens .notExpr d (i + 1) j e) : Derives prim tokens .notExpr d i j (.not e)
  | single {d i j : Nat} {e : Expr} (h : Derives prim tokens .notExpr d i j e) :
    Derives prim tokens .expr d i j e
  | and {d i j k : Nat} {l r : Expr} (hl : Derives prim tokens .expr d i j l)
    (hop : tokAt tokens j = some .and) (hr : Derives prim tokens .notExpr d (j + 1) k r) :
    Derives prim tokens .expr d i k (.and l r)
  | or {d i j k : Nat} {l r : Expr} (hl : Derives prim tokens .expr d i j l)
    (hop : tokAt tokens j = some .or) (hr : Derives prim tokens .notExpr d (j + 1) k r) :
    Derives prim tokens .expr d i k (.or l r)
  | juxtapose {d i j k : Nat} {l r : Expr} (hl : Derives prim tokens .expr d i j l)
    (hr : Derives prim tokens .notExpr d j k r) : Derives prim tokens .expr d i k (.and l r)

/-- What the expression parser relies on: a primitive is read forward and without a panic, takes
at least one token, and begins with a token of the juxtaposition list. -/
structure PrimStep (prim : Parse Primitive) : Prop where
  safe : Safe 0 prim
  past : ∀ p x q, prim p = .ok (x, q) → p.pos < q.pos
  starts : ∀ p x q, prim p = .ok (x, q) → ∃ t, tok p = some t ∧ startsPrimitive t

theorem primStep_parsePrimitive : PrimStep parsePrimitive where
  safe := safe_parsePrimitive
  past := by
    intro p x q h
    obtain ⟨t, ht, -⟩ := parsePrimitive_starts h
    have hpast := past_parsePrimitive ht
    rwa [h] at hpast
  starts := fun _ _ _ h => parsePrimitive_starts h

/-! ### The loop in pieces -/

section
variable (prim : Parse Primitive) (fuel : Nat)

/-- An operand is read: fold it and go on. -/
def resume (stack : List Open) (operand : Expr) (nots : Nat) (left : Left) : Parse Expr := do
  match ← foldOperand stack operand nots left with
  | .more left stack => exprLoop prim fuel stack left
  | .done e => return e

/-- A level has come to `e`: read its next operand, or close it. -/
def afterLevel (stack : List Open) (e : Expr) : Parse Expr := do
  match ← parseLogicalOp with
  | some isOr => exprLoop prim fuel stack (some (e, isOr))
  | none =>
    match stack with
    | [] => return e
    | outer :: stack =>
      expect .rParen
      resume prim fuel stack e outer.nots outer.left

/-- The `!`s of an operand are read. -/
def afterNots (stack : List Open) (left : Left) (nots : Nat) : Parse Expr := do
  if ← eat .lParen then
    if stack.length = maxParenDepth then
      err ("expression nested too deeply (max " ++ toString maxParenDepth ++ " parentheses)")
    else exprLoop prim fuel (⟨left, nots⟩ :: stack) none
  else
    let operand := Expr.primitive (← prim)
    match ← foldOperand stack operand nots left with
    | .more left stack => exprLoop prim fuel stack left
    | .done e => return e

variable {prim fuel}

theorem resume_eq (stack : List Open) (operand : Expr) (nots : Nat) (left : Left) :
    resume prim fuel stack operand nots left =
      afterLevel prim fuel stack (joinLeft left (applyNots nots operand)) := by
  unfold resume afterLevel
  rw [foldOperand.eq_def]
  simp only [bind_assoc]
  congr 1
  funext op
  cases op with
  | some isOr => rfl
  | none =>
    cases stack with
    | nil => rfl
    | cons outer stack =>
      simp only [bind_assoc]
      rfl

theorem exprLoop_succ (stack : List Open) (left : Left) (p : Parser) :
    exprLoop prim (fuel + 1) stack left p =
      (eatNots (p.tokens.length + 1) >>= afterNots prim fuel stack left) p := rfl

end

theorem parseLogicalOp_run (p : Parser) : parseLogicalOp p =
    if tok p = some .or then .ok (some true, next p)
    else if tok p = some .and then .ok (some false, next p)
    else match tok p with
      | some t => .ok (if looksLikePrimitiveStart t then some false else none, p)
      | none => .ok (none, p) := by
  change (eat .or p).bind (fun r => (if r.1 = true then _ else _ : Parse (Option Bool)) r.2) = _
  rw [eat_run]
  by_cases hor : tok p = some .or
  · rw [if_pos hor, if_pos hor]
    rfl
  · rw [if_neg hor, if_neg hor]
    change (eat .and p).bind (fun r => (if r.1 = true then _ else _ : Parse (Option Bool)) r.2) = _
    rw [eat_run]
    by_cases hand : tok p = some .and
    · rw [if_pos hand, if_pos hand]
      rfl
    · rw [if_neg hand, if_neg hand]
      change (match tok p with | some _ => _ | none => _ : Parse (Option Bool)) p = _
      cases tok p <;> rfl

theorem eatNot_run (p : Parser) : eatNot p =
    if isNot (tok p) then .ok (true, next p) else .ok (false, p) := by
  change (eat .not p).bind (fun r => (if r.1 = true then _ else _ : Parse Bool) r.2) = _
  rw [eat_run]
  by_cases hnot : tok p = some .not
  · rw [if_pos hnot, if_pos (.inl hnot)]
    rfl
  · rw [if_neg hnot]
    change eat .bang p = _
    rw [eat_run]
    by_cases hbang : tok p = some .bang
    · rw [if_pos hbang, if_pos (.inr hbang)]
    · rw [if_neg hbang, if_neg (by rintro (h | h) <;> contradiction)]

theorem eatNots_not {fuel : Nat} {p : Parser} (h : isNot (tok p)) :
    eatNots (fuel + 1) p = (eatNots fuel (next p)).map fun r => (r.1 + 1, r.2) := by
  change (eatNot p).bind (fun r => (if r.1 = true then _ else _ : Parse Nat) r.2) = _
  rw [eatNot_run, if_pos h]
  change (eatNots fuel (next p)).bind _ = _
  cases eatNots fuel (next p) <;> rfl

theorem eatNots_stop {fuel : Nat} {p : Parser} (h : ¬ isNot (tok p)) :
    eatNots (fuel + 1) p = .ok (0, p) := by
  change (eatNot p).bind (fun r => (if r.1 = true then _ else _ : Parse Nat) r.2) = _
  rw [eatNot_run, if_neg h]
  rfl

/-! ### What the grammar derives, the parser reads -/

section
variable {prim : Parse Primitive} {tokens : List Spanned}

theorem tok_at (i d : Nat) : tok ⟨tokens, i, d⟩ = tokAt tokens i := rfl

theorem tokAt_lt {i : Nat} {t : Token} (h : tokAt tokens i = some t) : i < tokens.length :=
  tok_lt (p := ⟨tokens, i, 0⟩) h

/-- The `!`s from `i` on are exactly `n`. -/
def Nots (tokens : List Spanned) (i n : Nat) : Prop :=
  (∀ k < n, isNot (tokAt tokens (i + k))) ∧ ¬ isNot (tokAt tokens (i + n))

theorem eatNots_run {i n fuel : Nat} (h : Nots tokens i n) (hfuel : n < fuel) :
    eatNots fuel ⟨tokens, i, 0⟩ = .ok (n, ⟨tokens, i + n, 0⟩) := by
  induction n generalizing i fuel with
  | zero =>
    obtain ⟨fuel, rfl⟩ := Nat.exists_eq_add_of_lt hfuel
    rw [Nat.zero_add]
    exact eatNots_stop h.2
  | succ n ih =>
    obtain ⟨fuel, rfl⟩ := Nat.exists_eq_succ_of_ne_zero (Nat.ne_zero_of_lt hfuel)
    have hfirst : isNot (tokAt tokens i) := by simpa using h.1 0 (Nat.succ_pos n)
    have hrest : Nots tokens (i + 1) n := by
      refine ⟨fun k hk => ?_, ?_⟩
      · have := h.1 (k + 1) (by omega)
        rwa [show i + (k + 1) = i + 1 + k by omega] at this
      · have := h.2
        rwa [show i + (n + 1) = i + 1 + n by omega] at this
    have hrun := ih hrest (show n < fuel by omega)
    rw [Nat.succ_eq_add_one, eatNots_not (p := ⟨tokens, i, 0⟩) hfirst]
    change (eatNots fuel ⟨tokens, i + 1, 0⟩).map _ = _
    rw [hrun]
    change Except.ok (n + 1, _) = _
    rw [show i + 1 + n = i + (n + 1) by omega]

theorem applyNots_succ (n : Nat) (e : Expr) : applyNots (n + 1) e = .not (applyNots n e) := by
  induction n generalizing e with
  | zero => rfl
  | succ n ih => exact ih (.not e)

/-- Reading an atom leads on to its level, whatever surrounds it. -/
def RunsAtom (prim : Parse Primitive) (tokens : List Spanned) (d i j : Nat) (e : Expr) : Prop :=
  (∃ t, tokAt tokens i = some t ∧ looksLikePrimitiveStart t ∧ ¬ isNot (some t)) ∧
  ∃ m, i + m < j ∧ ∀ fuel stack left nots, stack.length = d →
    afterNots prim (fuel + m) stack left nots ⟨tokens, i, 0⟩ =
      afterLevel prim fuel stack (joinLeft left (applyNots nots e)) ⟨tokens, j, 0⟩

/-- Reading an operand, with the `!`s before it, leads on to its level. -/
def RunsOperand (prim : Parse Primitive) (tokens : List Spanned) (d i j : Nat) (e : Expr) : Prop :=
  ∃ n a, e = applyNots n a ∧ Nots tokens i n ∧ RunsAtom prim tokens d (i + n) j a

/-- Reading a level from its first operand on leads to its end. -/
def RunsLevel (prim : Parse Primitive) (tokens : List Spanned) (d i j : Nat) (e : Expr) : Prop :=
  ∃ m, i + m ≤ j ∧ ∀ fuel stack, stack.length = d →
    exprLoop prim (fuel + m) stack none ⟨tokens, i, 0⟩ =
      afterLevel prim fuel stack e ⟨tokens, j, 0⟩

def Runs (prim : Parse Primitive) (tokens : List Spanned) :
    Cat → Nat → Nat → Nat → Expr → Prop
  | .atom => RunsAtom prim tokens
  | .notExpr => RunsOperand prim tokens
  | .expr => RunsLevel prim tokens

theorem afterNots_primitive {fuel i j : Nat} {x : Primitive} {stack : List Open} {left : Left}
    {nots : Nat} (hparen : tokAt tokens i ≠ some .lParen)
    (h : prim ⟨tokens, i, 0⟩ = .ok (x, ⟨tokens, j, 0⟩)) :
    afterNots prim fuel stack left nots ⟨tokens, i, 0⟩ =
      afterLevel prim fuel stack (joinLeft left (applyNots nots (.primitive x)))
        ⟨tokens, j, 0⟩ := by
  rw [← resume_eq]
  change (eat .lParen ⟨tokens, i, 0⟩).bind
    (fun r => (if r.1 = true then _ else _ : Parse Expr) r.2) = _
  rw [eat_run, tok_at, if_neg hparen]
  change (prim ⟨tokens, i, 0⟩).bind _ = _
  rw [h]
  rfl

theorem afterNots_paren {fuel i : Nat} {stack : List Open} {left : Left} {nots : Nat}
    (hparen : tokAt tokens i = some .lParen) :
    afterNots prim fuel stack left nots ⟨tokens, i, 0⟩ =
      if stack.length = maxParenDepth then
        .error (.parseError ("expression nested too deeply (max " ++ toString maxParenDepth ++
          " parentheses)"))
      else exprLoop prim fuel (⟨left, nots⟩ :: stack) none ⟨tokens, i + 1, 0⟩ := by
  change (eat .lParen ⟨tokens, i, 0⟩).bind
    (fun r => (if r.1 = true then _ else _ : Parse Expr) r.2) = _
  rw [eat_run, tok_at, if_pos hparen]
  change (if stack.length = maxParenDepth then _ else _ : Parse Expr) _ = _
  split <;> rfl

/-- A level that ends at a `)` resumes the enclosing one. -/
theorem afterLevel_close {fuel j : Nat} {outer : Open} {stack : List Open} {e : Expr}
    (h : tokAt tokens j = some .rParen) :
    afterLevel prim fuel (outer :: stack) e ⟨tokens, j, 0⟩ =
      afterLevel prim fuel stack (joinLeft outer.left (applyNots outer.nots e))
        ⟨tokens, j + 1, 0⟩ := by
  rw [← resume_eq]
  have hop : parseLogicalOp ⟨tokens, j, 0⟩ = .ok (none, ⟨tokens, j, 0⟩) := by
    rw [parseLogicalOp_run, tok_at, h]
    rfl
  change (parseLogicalOp ⟨tokens, j, 0⟩).bind _ = _
  rw [hop]
  change (expect .rParen ⟨tokens, j, 0⟩).bind _ = _
  have hexpect : expect .rParen ⟨tokens, j, 0⟩ = .ok ((), ⟨tokens, j + 1, 0⟩) := by
    change (eat .rParen ⟨tokens, j, 0⟩).bind _ = _
    rw [eat_run, tok_at, if_pos h]
    rfl
  rw [hexpect]
  rfl

theorem RunsOperand.exprLoop {d i j : Nat} {e : Expr} (h : RunsOperand prim tokens d i j e) :
    ∃ m, i + m ≤ j ∧ ∀ fuel stack left, stack.length = d →
      exprLoop prim (fuel + m) stack left ⟨tokens, i, 0⟩ =
        afterLevel prim fuel stack (joinLeft left e) ⟨tokens, j, 0⟩ := by
  obtain ⟨n, a, rfl, hnots, ⟨t, ht, -⟩, m, hm, hrun⟩ := h
  refine ⟨m + 1, by omega, fun fuel stack left hd => ?_⟩
  have hn : n < tokens.length + 1 := by
    have := tokAt_lt ht
    omega
  rw [← Nat.add_assoc, exprLoop_succ]
  change (eatNots (tokens.length + 1) ⟨tokens, i, 0⟩).bind _ = _
  rw [eatNots_run hnots hn]
  exact hrun fuel stack left n hd

/-- The token an operand begins with. -/
theorem RunsOperand.starts {d i j : Nat} {e : Expr} (h : RunsOperand prim tokens d i j e) :
    ∃ t, tokAt tokens i = some t ∧ looksLikePrimitiveStart t := by
  obtain ⟨n, a, -, hnots, ⟨t, ht, hlooks, -⟩, -⟩ := h
  cases n with
  | zero => exact ⟨t, ht, hlooks⟩
  | succ n =>
    rcases hnots.1 0 (Nat.succ_pos n) with hfirst | hfirst
    · exact ⟨.not, hfirst, rfl⟩
    · exact ⟨.bang, hfirst, rfl⟩

/-- A level goes on to an operand behind an operator. -/
theorem RunsLevel.append {d i j j' k : Nat} {l r : Expr} {o : Bool}
    (hl : RunsLevel prim tokens d i j l) (hr : RunsOperand prim tokens d j' k r)
    (hj : j ≤ j') (hop : parseLogicalOp ⟨tokens, j, 0⟩ = .ok (some o, ⟨tokens, j', 0⟩)) :
    RunsLevel prim tokens d i k (joinLeft (some (l, o)) r) := by
  obtain ⟨m, hm, hrunl⟩ := hl
  obtain ⟨m', hm', hrunr⟩ := hr.exprLoop
  refine ⟨m' + m, by omega, fun fuel stack hd => ?_⟩
  rw [← Nat.add_assoc, hrunl _ stack hd]
  change (parseLogicalOp ⟨tokens, j, 0⟩).bind _ = _
  rw [hop]
  exact hrunr fuel stack (some (l, o)) hd

theorem looksLike_ne {t : Token} (h : looksLikePrimitiveStart t = true) :
    t ≠ .or ∧ t ≠ .and := by
  constructor <;> rintro rfl <;> cases h

theorem startsPrimitive_iff {t : Token} : startsPrimitive t = true ↔
    looksLikePrimitiveStart t = true ∧ t ≠ .not ∧ t ≠ .bang ∧ t ≠ .lParen := by
  simp [startsPrimitive, and_assoc]

theorem Derives.runs (hprim : PrimStep prim) {c : Cat} {d i j : Nat} {e : Expr}
    (h : Derives prim tokens c d i j e) : Runs prim tokens c d i j e := by
  induction h with
  | primitive h =>
    obtain ⟨t, ht, hstart⟩ := hprim.starts _ _ _ h
    obtain ⟨hlooks, hnot, hbang, hparen⟩ := startsPrimitive_iff.mp hstart
    refine ⟨⟨t, ht, hlooks, by simp [isNot, hnot, hbang]⟩, 0, hprim.past _ _ _ h, ?_⟩
    intro fuel stack left nots _
    refine afterNots_primitive ?_ h
    intro hopen
    exact hparen (Option.some.inj (ht.symm.trans hopen))
  | @paren d i j e hopen hd _ hclose ih =>
    obtain ⟨m, hm, hrun⟩ := ih
    refine ⟨⟨_, hopen, rfl, by simp [isNot]⟩, m, by omega, ?_⟩
    intro fuel stack left nots hlen
    rw [afterNots_paren hopen, if_neg (by omega), hrun fuel _ (by simp [hlen]),
      afterLevel_close hclose]
  | atom _ ih =>
    obtain ⟨⟨t, ht, hlooks, hnot⟩, hrun⟩ := ih
    refine ⟨0, _, rfl, ⟨fun k hk => absurd hk (Nat.not_lt_zero k), ?_⟩, ⟨t, ht, hlooks, hnot⟩,
      hrun⟩
    rw [Nat.add_zero, ht]
    exact hnot
  | @not d i j e hnot _ ih =>
    obtain ⟨n, a, rfl, hnots, hrun⟩ := ih
    refine ⟨n + 1, a, (applyNots_succ n a).symm, ⟨fun k hk => ?_, ?_⟩, ?_⟩
    · cases k with
      | zero => exact hnot
      | succ k =>
        have := hnots.1 k (by omega)
        rwa [show i + 1 + k = i + (k + 1) by omega] at this
    · have := hnots.2
      rwa [show i + 1 + n = i + (n + 1) by omega] at this
    · rwa [show i + 1 + n = i + (n + 1) by omega] at hrun
  | single _ ih =>
    obtain ⟨m, hm, hrun⟩ := RunsOperand.exprLoop ih
    exact ⟨m, hm, fun fuel stack hd => hrun fuel stack none hd⟩
  | and _ hop _ ihl ihr =>
    refine RunsLevel.append (o := false) ihl ihr (Nat.le_succ _) ?_
    rw [parseLogicalOp_run, tok_at, hop]
    rfl
  | or _ hop _ ihl ihr =>
    refine RunsLevel.append (o := true) ihl ihr (Nat.le_succ _) ?_
    rw [parseLogicalOp_run, tok_at, hop]
    rfl
  | juxtapose _ _ ihl ihr =>
    refine RunsLevel.append (o := false) ihl ihr le_rfl ?_
    obtain ⟨t, ht, hlooks⟩ := RunsOperand.starts ihr
    obtain ⟨hor, hand⟩ := looksLike_ne hlooks
    rw [parseLogicalOp_run, tok_at, ht, if_neg (by simpa using hor), if_neg (by simpa using hand)]
    simp only [hlooks, if_true]

/-! ### What the parser reads, the grammar derives -/

theorem eatNots_ok {fuel i n : Nat} {q : Parser}
    (h : eatNots fuel ⟨tokens, i, 0⟩ = .ok (n, q)) :
    q = ⟨tokens, i + n, 0⟩ ∧ ∀ k < n, isNot (tokAt tokens (i + k)) := by
  induction fuel generalizing i n with
  | zero => cases h
  | succ fuel ih =>
    by_cases hnot : isNot (tok ⟨tokens, i, 0⟩)
    · rw [eatNots_not hnot] at h
      change (eatNots fuel ⟨tokens, i + 1, 0⟩).map _ = _ at h
      cases hrun : eatNots fuel ⟨tokens, i + 1, 0⟩ with
      | error e =>
        rw [hrun] at h
        cases h
      | ok r =>
        rw [hrun] at h
        cases h
        obtain ⟨hpos, hnots⟩ := ih hrun
        refine ⟨?_, fun k hk => ?_⟩
        · rw [hpos]
          congr 1
          omega
        · cases k with
          | zero => exact hnot
          | succ k =>
            have := hnots k (by omega)
            rwa [show i + 1 + k = i + (k + 1) by omega] at this
    · rw [eatNots_stop hnot] at h
      cases h
      exact ⟨rfl, fun k hk => absurd hk (Nat.not_lt_zero k)⟩

theorem derives_nots {d i j n : Nat} {a : Expr} (hnots : ∀ k < n, isNot (tokAt tokens (i + k)))
    (h : Derives prim tokens .atom d (i + n) j a) :
    Derives prim tokens .notExpr d i j (applyNots n a) := by
  induction n generalizing i with
  | zero => exact .atom h
  | succ n ih =>
    rw [applyNots_succ]
    refine .not (hnots 0 (Nat.succ_pos n)) (ih (fun k hk => ?_) ?_)
    · have := hnots (k + 1) (by omega)
      rwa [show i + (k + 1) = i + 1 + k by omega] at this
    · rwa [show i + (n + 1) = i + 1 + n by omega] at h

/-- An operand that the loop read is one the grammar derives. -/
def OperandRead (prim : Parse Primitive) (tokens : List Spanned) (fuel : Nat) : Prop :=
  ∀ (stack : List Open) (left : Left) (i : Nat) (r : Expr × Parser),
    stack.length ≤ maxParenDepth → i ≤ tokens.length →
    exprLoop prim fuel stack left ⟨tokens, i, 0⟩ = .ok r →
    ∃ j e f, f < fuel ∧ j ≤ tokens.length ∧ Derives prim tokens .notExpr stack.length i j e ∧
      afterLevel prim f stack (joinLeft left e) ⟨tokens, j, 0⟩ = .ok r

/-- Where a finished level leads: to the result, or to the enclosing level behind a `)`. -/
def Closes (prim : Parse Primitive) (tokens : List Spanned) (fuel : Nat) (k : Nat) (e : Expr)
    (r : Expr × Parser) : List Open → Prop
  | [] => r = (e, ⟨tokens, k, 0⟩)
  | outer :: stack => tokAt tokens k = some .rParen ∧
    afterLevel prim fuel stack (joinLeft outer.left (applyNots outer.nots e))
      ⟨tokens, k + 1, 0⟩ = .ok r

/-- A level that the loop read to its end is one the grammar derives. -/
def LevelRead (prim : Parse Primitive) (tokens : List Spanned) (fuel : Nat) : Prop :=
  ∀ (stack : List Open) (i j : Nat) (l : Expr) (r : Expr × Parser),
    stack.length ≤ maxParenDepth → j ≤ tokens.length →
    Derives prim tokens .expr stack.length i j l →
    afterLevel prim fuel stack l ⟨tokens, j, 0⟩ = .ok r →
    ∃ k e f, f ≤ fuel ∧ Derives prim tokens .expr stack.length i k e ∧
      Closes prim tokens f k e r stack

/-- The cases of the operator behind an operand. -/
theorem parseLogicalOp_cases (tokens : List Spanned) (j : Nat) :
    (tokAt tokens j = some .or ∧
      parseLogicalOp ⟨tokens, j, 0⟩ = .ok (some true, ⟨tokens, j + 1, 0⟩)) ∨
    (tokAt tokens j = some .and ∧
      parseLogicalOp ⟨tokens, j, 0⟩ = .ok (some false, ⟨tokens, j + 1, 0⟩)) ∨
    parseLogicalOp ⟨tokens, j, 0⟩ = .ok (some false, ⟨tokens, j, 0⟩) ∨
    parseLogicalOp ⟨tokens, j, 0⟩ = .ok (none, ⟨tokens, j, 0⟩) := by
  rw [parseLogicalOp_run, tok_at]
  by_cases hor : tokAt tokens j = some .or
  · exact .inl ⟨hor, if_pos hor⟩
  by_cases hand : tokAt tokens j = some .and
  · exact .inr (.inl ⟨hand, by rw [if_neg hor, if_pos hand]; rfl⟩)
  rw [if_neg hor, if_neg hand]
  cases tokAt tokens j with
  | none => exact .inr (.inr (.inr rfl))
  | some t =>
    cases hlooks : looksLikePrimitiveStart t
    · exact .inr (.inr (.inr (by simp [hlooks])))
    · exact .inr (.inr (.inl (by simp [hlooks])))

theorem expect_ok {t : Token} {p q : Parser} (h : expect t p = .ok ((), q)) :
    tok p = some t ∧ q = next p := by
  change (eat t p).bind (fun r => (if r.1 = true then _ else _ : Parse Unit) r.2) = _ at h
  rw [eat_run] at h
  split at h
  · rename_i ht
    cases h
    exact ⟨ht, rfl⟩
  · cases h

theorem levelRead {fuel : Nat} (hoperand : OperandRead prim tokens fuel)
    (ih : ∀ f < fuel, LevelRead prim tokens f) : LevelRead prim tokens fuel := by
  intro stack i j l r hlen hj hl hrun
  change (parseLogicalOp ⟨tokens, j, 0⟩).bind _ = _ at hrun
  -- Behind an operator the level goes on with an operand and then with less fuel.
  have more : ∀ (o : Bool) (j' : Nat), j' ≤ tokens.length →
      exprLoop prim fuel stack (some (l, o)) ⟨tokens, j', 0⟩ = .ok r →
      (∀ k e, Derives prim tokens .notExpr stack.length j' k e →
        Derives prim tokens .expr stack.length i k (joinLeft (some (l, o)) e)) →
      ∃ k e f, f ≤ fuel ∧ Derives prim tokens .expr stack.length i k e ∧
        Closes prim tokens f k e r stack := by
    intro o j' hj' hloop hext
    obtain ⟨k, e, f, hf, hk, he, hafter⟩ := hoperand stack _ j' r hlen hj' hloop
    obtain ⟨k', e', f', hf', he', hclose⟩ := ih f hf stack i k _ r hlen hk (hext k e he) hafter
    exact ⟨k', e', f', hf'.trans hf.le, he', hclose⟩
  rcases parseLogicalOp_cases tokens j with ⟨ht, hop⟩ | ⟨ht, hop⟩ | hop | hop
  · rw [hop] at hrun
    exact more true (j + 1) (tokAt_lt ht) hrun fun k e he => .or hl ht he
  · rw [hop] at hrun
    exact more false (j + 1) (tokAt_lt ht) hrun fun k e he => .and hl ht he
  · rw [hop] at hrun
    exact more false j hj hrun fun k e he => .juxtapose hl he
  · rw [hop] at hrun
    refine ⟨j, l, fuel, le_rfl, hl, ?_⟩
    cases stack with
    | nil =>
      cases hrun
      rfl
    | cons outer stack =>
      change (expect .rParen ⟨tokens, j, 0⟩).bind _ = _ at hrun
      cases hexpect : expect .rParen ⟨tokens, j, 0⟩ with
      | error e =>
        rw [hexpect] at hrun
        cases hrun
      | ok s =>
        obtain ⟨ht, hq⟩ := expect_ok hexpect
        rw [hexpect] at hrun
        change resume prim fuel stack l outer.nots outer.left s.2 = _ at hrun
        rw [hq, resume_eq] at hrun
        exact ⟨ht, hrun⟩

theorem operandRead (hprim : PrimStep prim) {fuel : Nat}
    (ih : ∀ f < fuel, OperandRead prim tokens f ∧ LevelRead prim tokens f) :
    OperandRead prim tokens fuel := by
  intro stack left i r hlen hi hrun
  cases fuel with
  | zero => cases hrun
  | succ fuel =>
    rw [exprLoop_succ] at hrun
    change (eatNots (tokens.length + 1) ⟨tokens, i, 0⟩).bind _ = _ at hrun
    cases hnotsrun : eatNots (tokens.length + 1) ⟨tokens, i, 0⟩ with
    | error e =>
      rw [hnotsrun] at hrun
      cases hrun
    | ok s =>
      obtain ⟨n, q⟩ := s
      obtain ⟨rfl, hnots⟩ := eatNots_ok hnotsrun
      rw [hnotsrun] at hrun
      change afterNots prim fuel stack left n ⟨tokens, i + n, 0⟩ = _ at hrun
      by_cases hparen : tokAt tokens (i + n) = some .lParen
      · rw [afterNots_paren hparen] at hrun
        split at hrun
        · cases hrun
        · rename_i hdepth
          have hlen' : (⟨left, n⟩ :: stack : List Open).length ≤ maxParenDepth := by
            simp only [List.length_cons]
            omega
          obtain ⟨j, e, f, hf, hj, he, hafter⟩ :=
            (ih fuel (Nat.lt_succ_self _)).1 _ none _ r hlen' (tokAt_lt hparen) hrun
          obtain ⟨k, e', f', hf', he', hclose, hafter'⟩ :=
            (ih f (by omega)).2 _ _ j e r hlen' hj (.single he) hafter
          refine ⟨k + 1, _, f', by omega, tokAt_lt hclose, derives_nots hnots ?_, hafter'⟩
          exact .paren hparen (by omega) he' hclose
      · change (eat .lParen ⟨tokens, i + n, 0⟩).bind
          (fun r => (if r.1 = true then _ else _ : Parse Expr) r.2) = _ at hrun
        rw [eat_run, tok_at, if_neg hparen] at hrun
        change (prim ⟨tokens, i + n, 0⟩).bind
          (fun s => resume prim fuel stack (.primitive s.1) n left s.2) = _ at hrun
        cases hx : prim ⟨tokens, i + n, 0⟩ with
        | error e =>
          rw [hx] at hrun
          cases hrun
        | ok s =>
          obtain ⟨x, q⟩ := s
          obtain ⟨t, ht, -⟩ := hprim.starts _ _ _ hx
          have hmv := hprim.safe ⟨tokens, i + n, 0⟩ (tok_lt ht).le le_rfl
          rw [hx] at hmv hrun
          have hq : q = ⟨tokens, q.pos, 0⟩ := by
            cases q
            exact congrArg₂ (Parser.mk · _ ·) hmv.tokens hmv.depth
          change resume prim fuel stack (.primitive x) n left q = _ at hrun
          rw [resume_eq, hq] at hrun
          rw [hq] at hx
          exact ⟨q.pos, _, fuel, Nat.lt_succ_self _, hmv.bound, derives_nots hnots (.primitive hx),
            hrun⟩

theorem reads (hprim : PrimStep prim) (tokens : List Spanned) (fuel : Nat) :
    OperandRead prim tokens fuel ∧ LevelRead prim tokens fuel := by
  induction fuel using Nat.strong_induction_on with
  | _ fuel ih =>
    have hoperand := operandRead hprim ih
    exact ⟨hoperand, levelRead hoperand fun f hf => (ih f hf).2⟩

/-! ### Errors -/

theorem safe_parseLogicalOp {b : Nat} : Safe b parseLogicalOp := by
  refine Safe.eat.bind fun _ => Safe.ite Safe.pure (Safe.eat.bind fun _ => Safe.ite Safe.pure ?_)
  refine Safe.curTok.bind fun t => ?_
  cases t <;> exact Safe.pure

theorem eatNots_ends (fuel : Nat) :
    ∀ p : Parser, p.pos ≤ p.tokens.length → p.tokens.length < fuel + p.pos →
      Ends p (eatNots fuel p) := by
  induction fuel with
  | zero => omega
  | succ fuel ih =>
    intro p hp hfuel
    by_cases hnot : isNot (tok p)
    · obtain ⟨t, ht⟩ : ∃ t, tok p = some t := by
        rcases hnot with h | h
        · exact ⟨_, h⟩
        · exact ⟨_, h⟩
      rw [eatNots_not hnot]
      refine Ends.next ht ?_
      have hlen : (next p).tokens.length = p.tokens.length := rfl
      have hpos : (next p).pos = p.pos + 1 := rfl
      have hnext := ih (next p) (tok_lt ht) (by omega)
      revert hnext
      cases eatNots fuel (next p) with
      | error e => exact id
      | ok r => exact id
    · rw [eatNots_stop hnot]
      exact Moved.refl hp

theorem safe_foldOperand (stack : List Open) :
    ∀ (operand : Expr) (nots : Nat) (left : Left),
      Safe 0 (foldOperand stack operand nots left) := by
  induction stack with
  | nil =>
    intro operand nots left
    rw [foldOperand]
    refine safe_parseLogicalOp.bind fun op => ?_
    cases op <;> exact Safe.pure
  | cons outer stack ih =>
    intro operand nots left
    rw [foldOperand]
    refine safe_parseLogicalOp.bind fun op => ?_
    cases op with
    | none => exact Safe.expect.bind fun _ => ih _ _ _
    | some isOr => exact Safe.pure

/-- The loop ends before its fuel does: every turn consumes a `(` or a primitive. -/
theorem exprLoop_ends (hprim : PrimStep prim) (fuel : Nat) :
    ∀ (stack : List Open) (left : Left) (p : Parser), p.pos ≤ p.tokens.length →
      p.tokens.length < fuel + p.pos → Ends p (exprLoop prim fuel stack left p) := by
  induction fuel with
  | zero => omega
  | succ fuel ih =>
    intro stack left p hp hfuel
    rw [exprLoop_succ]
    refine (eatNots_ends _ p hp (by omega)).bind fun nots q _ hq => ?_
    have hqp : q.pos ≤ q.tokens.length := by simpa only [hq.tokens] using hq.bound
    have hqfuel : q.tokens.length < fuel + 1 + q.pos := by
      rw [hq.tokens]
      have := hq.le
      omega
    change Ends q ((eat .lParen q).bind fun r => (if r.1 = true then _ else _ : Parse Expr) r.2)
    rw [eat_run]
    split
    · rename_i hparen
      refine Ends.next hparen ?_
      change Ends (next q) ((if stack.length = maxParenDepth then _ else _ : Parse Expr) (next q))
      split
      · exact fun _ hpanic => hpanic
      · have hlen : (next q).tokens.length = q.tokens.length := rfl
        have hpos : (next q).pos = q.pos + 1 := rfl
        exact ih _ none (next q) (tok_lt hparen) (by omega)
    · refine (hprim.safe q hqp (Nat.zero_le _)).bind fun x u hx hu => ?_
      have hup : u.pos ≤ u.tokens.length := by simpa only [hu.tokens] using hu.bound
      have hlt := hprim.past _ _ _ hx
      refine (safe_foldOperand stack _ nots left u hup (Nat.zero_le _)).bind fun folded v _ hv => ?_
      have hvp : v.pos ≤ v.tokens.length := by simpa only [hv.tokens] using hv.bound
      cases folded with
      | done e => exact Moved.refl hvp
      | more left stack =>
        refine ih stack left v hvp ?_
        rw [hv.tokens, hu.tokens]
        have := hv.le
        omega

theorem parseExpr_ends (hprim : PrimStep prim) (tokens : List Spanned) :
    Ends ⟨tokens, 0, 0⟩ (parseExpr prim ⟨tokens, 0, 0⟩) :=
  exprLoop_ends hprim _ [] none ⟨tokens, 0, 0⟩ (Nat.zero_le _) (Nat.lt_succ_self _)

/-- What the grammar derives from all the tokens is what the parser returns. -/
theorem parseWith_ok_iff (hprim : PrimStep prim) (t : Expr) :
    parseWith prim tokens = .ok t ↔ Derives prim tokens .expr 0 0 tokens.length t := by
  change (parseExpr prim ⟨tokens, 0, 0⟩).bind _ = _ ↔ _
  constructor
  · intro h
    have hends := parseExpr_ends hprim tokens
    cases hrun : parseExpr prim ⟨tokens, 0, 0⟩ with
    | error e =>
      rw [hrun] at h
      cases h
    | ok s =>
      rw [hrun] at h hends
      obtain ⟨e, q⟩ := s
      change (if q.pos < tokens.length then _ else _) = _ at h
      split at h
      · cases h
      · rename_i hend
        cases h
        obtain ⟨j, e, f, -, hj, he, hafter⟩ :=
          (reads hprim tokens (tokens.length + 1)).1 [] none 0 _ (Nat.zero_le _)
            (Nat.zero_le _) hrun
        obtain ⟨k, e', f', -, he', hclose⟩ :=
          (reads hprim tokens f).2 [] 0 j e _ (Nat.zero_le _) hj (.single he) hafter
        cases hclose
        have hk : k = tokens.length := by
          have hbound : k ≤ tokens.length := hends.bound
          have hnot : ¬ k < tokens.length := hend
          omega
        rwa [hk] at he'
  · intro h
    obtain ⟨m, hm, hrun⟩ := h.runs hprim
    have hloop : parseExpr prim ⟨tokens, 0, 0⟩ = .ok (t, ⟨tokens, tokens.length, 0⟩) := by
      have hfuel : tokens.length + 1 = tokens.length + 1 - m + m := by omega
      change exprLoop prim (tokens.length + 1) [] none ⟨tokens, 0, 0⟩ = _
      rw [hfuel, hrun _ [] rfl]
      change (parseLogicalOp ⟨tokens, tokens.length, 0⟩).bind _ = _
      have hnone : tokAt tokens tokens.length = none := by simp [tokAt]
      rw [parseLogicalOp_run, tok_at, hnone]
      rfl
    rw [hloop]
    exact if_neg (lt_irrefl _)

theorem parseWith_error (hprim : PrimStep prim) {e : Error} (h : parseWith prim tokens = .error e)
    (hd : Dotted tokens) : ¬ isPanic e := by
  have hends := parseExpr_ends hprim tokens
  change (parseExpr prim ⟨tokens, 0, 0⟩).bind _ = _ at h
  cases hrun : parseExpr prim ⟨tokens, 0, 0⟩ with
  | error e' =>
    rw [hrun] at h hends
    cases h
    exact hends hd
  | ok s =>
    rw [hrun] at h
    change (if s.2.pos < tokens.length then _ else _) = _ at h
    split at h
    · cases h
      exact id
    · cases h

end

/-- The parser is its grammar: it returns a tree exactly for the token sequences the grammar
derives, and then the tree of the derivation; every other sequence is an error, and no panic
as long as its dotted addresses are ones the lexer writes. -/
theorem parse_eq_grammar (tokens : List Spanned) :
    (∀ t : Expr, parse tokens = .ok t ↔
      Derives parsePrimitive tokens .expr 0 0 tokens.length t) ∧
    ((¬ ∃ t, Derives parsePrimitive tokens .expr 0 0 tokens.length t) →
      ∃ e, parse tokens = .error e ∧ (Dotted tokens → ¬ isPanic e)) := by
  refine ⟨parseWith_ok_iff primStep_parsePrimitive, fun hnone => ?_⟩
  cases hrun : parse tokens with
  | ok t => exact absurd ⟨t, (parseWith_ok_iff primStep_parsePrimitive t).mp hrun⟩ hnone
  | error e => exact ⟨e, rfl, parseWith_error primStep_parsePrimitive hrun⟩

end PktBaffle.Proofs.Parser
