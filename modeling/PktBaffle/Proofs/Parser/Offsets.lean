import PktBaffle.Proofs.Parser.Qualifiers

namespace PktBaffle.Proofs.Parser
open PktBaffle.Lexer Parsing

/-! ### The offset grammar -/

inductive BinOp where
  | or | xor | and | shl | shr | add | sub | mul | div

namespace BinOp

/-- How tightly the operator binds. -/
def level : BinOp → Nat
  | or => 0
  | xor => 1
  | and => 2
  | shl | shr => 3
  | add | sub => 4
  | mul | div => 5

def token : BinOp → Token
  | or => .pipe
  | xor => .caret
  | and => .amp
  | shl => .shl
  | shr => .shr
  | add => .plus
  | sub => .minus
  | mul => .star
  | div => .slash

/-- The operator on the integers: two's complement bit operations, division that truncates, and a
right shift that rounds down. -/
def apply : BinOp → Int → Int → Int
  | or => Int.lor
  | xor => Int.xor
  | and => Int.land
  | shl => fun a b => a * 2 ^ b.toNat
  | shr => fun a b => a / 2 ^ b.toNat
  | add => (· + ·)
  | sub => (· - ·)
  | mul => (· * ·)
  | div => Int.tdiv

end BinOp

/-- The integers an `i64` holds. -/
def InI64 (v : Int) : Prop := -2 ^ 63 ≤ v ∧ v < 2 ^ 63

/-- What an operator asks of its operands. -/
def BinOp.Defined (op : BinOp) (a b : Int) : Prop :=
  match op with
  | or | xor | and => True
  | shl => (0 ≤ b ∧ b < 64) ∧ InI64 (a * 2 ^ b.toNat)
  | shr => 0 ≤ b ∧ b < 64
  | add => InI64 (a + b)
  | sub => InI64 (a - b)
  | mul => InI64 (a * b)
  | div => b ≠ 0 ∧ InI64 (a.tdiv b)

/-- An offset expression, with the parentheses it is written with. -/
inductive Offset where
  | num (n : Nat)
  | neg (t : Offset)
  | paren (t : Offset)
  | bin (op : BinOp) (l r : Offset)

namespace Offset

/-- The exact integer value. -/
def value : Offset → Int
  | num n => n
  | neg t => -t.value
  | paren t => t.value
  | bin op l r => op.apply l.value r.value

/-- With `d` of the depth budget spent around it, the expression stays within the budget, its
intermediate results fit an `i64`, and its operators are defined. -/
def Valid : Nat → Offset → Prop
  | _, num _ => True
  | d, neg t => d + 1 ≤ maxOffsetDepth ∧ Valid (d + 1) t ∧ InI64 (-t.value)
  | d, paren t => d + offsetParenCost ≤ maxOffsetDepth ∧ Valid (d + offsetParenCost) t
  | d, bin op l r => Valid d l ∧ Valid d r ∧ op.Defined l.value r.value

end Offset

/-- `Written tokens l i j t`: from `i` up to `j` stands `t`, whose outermost operators bind at
least as tightly as level `l`. Operators associate to the left. -/
inductive Written (tokens : List Spanned) : Nat → Nat → Nat → Offset → Prop where
  | num {i : Nat} {n : UInt64} (ht : tokAt tokens i = some (.num n)) (hn : n.toNat ≤ 0xffffffff) :
    Written tokens 6 i (i + 1) (.num n.toNat)
  | neg {i j : Nat} {t : Offset} (ht : tokAt tokens i = some .minus)
    (h : Written tokens 6 (i + 1) j t) : Written tokens 6 i j (.neg t)
  | paren {i j : Nat} {t : Offset} (ht : tokAt tokens i = some .lParen)
    (h : Written tokens 0 (i + 1) j t) (hclose : tokAt tokens j = some .rParen) :
    Written tokens 6 i (j + 1) (.paren t)
  | tighter {l i j : Nat} {t : Offset} (hl : l < 6) (h : Written tokens (l + 1) i j t) :
    Written tokens l i j t
  | bin {i j k : Nat} {op : BinOp} {a b : Offset} (hl : Written tokens op.level i j a)
    (ht : tokAt tokens j = some op.token) (hr : Written tokens (op.level + 1) (j + 1) k b) :
    Written tokens op.level i k (.bin op a b)

/-! ### Values an `i64` holds -/

theorem overflow_run (v : Int) (p : Parser) : (InI64 v → overflow v p = .ok (v, p)) ∧
    (¬ InI64 v → ∃ m, overflow v p = .error (.parseError m)) := by
  unfold overflow checkedOr checked InI64
  by_cases h : -2 ^ 63 ≤ v ∧ v < 2 ^ 63
  · rw [if_pos h]
    exact ⟨fun _ => rfl, fun hn => absurd h hn⟩
  · rw [if_neg h]
    exact ⟨fun hn => absurd hn h, fun _ => ⟨_, rfl⟩⟩

theorem nat_lt_of_inI64 {n : Nat} : InI64 (Int.ofNat n) ↔ n < 2 ^ 63 := by
  unfold InI64
  simp only [Int.ofNat_eq_natCast]
  omega

theorem negSucc_inI64 {n : Nat} : InI64 (Int.negSucc n) ↔ n < 2 ^ 63 := by
  unfold InI64
  rw [Int.negSucc_eq]
  omega

theorem ldiff_lt {m n k : Nat} (h : m < 2 ^ k) : Nat.ldiff m n < 2 ^ k := by
  refine Nat.lt_pow_two_of_testBit _ fun i hi => ?_
  rw [Nat.testBit_ldiff, Nat.testBit_lt_two_pow (lt_of_lt_of_le h (Nat.pow_le_pow_right (by decide) hi))]
  rfl

theorem inI64_land {a b : Int} (ha : InI64 a) (hb : InI64 b) : InI64 (Int.land a b) := by
  cases a with
  | ofNat m =>
    rw [nat_lt_of_inI64] at ha
    cases b with
    | ofNat n => exact nat_lt_of_inI64.mpr (lt_of_le_of_lt Nat.and_le_left ha)
    | negSucc n => exact nat_lt_of_inI64.mpr (ldiff_lt ha)
  | negSucc m =>
    rw [negSucc_inI64] at ha
    cases b with
    | ofNat n => exact nat_lt_of_inI64.mpr (ldiff_lt (nat_lt_of_inI64.mp hb))
    | negSucc n => exact negSucc_inI64.mpr (Nat.or_lt_two_pow ha (negSucc_inI64.mp hb))

theorem inI64_lor {a b : Int} (ha : InI64 a) (hb : InI64 b) : InI64 (Int.lor a b) := by
  cases a with
  | ofNat m =>
    rw [nat_lt_of_inI64] at ha
    cases b with
    | ofNat n => exact nat_lt_of_inI64.mpr (Nat.or_lt_two_pow ha (nat_lt_of_inI64.mp hb))
    | negSucc n => exact negSucc_inI64.mpr (ldiff_lt (negSucc_inI64.mp hb))
  | negSucc m =>
    rw [negSucc_inI64] at ha
    cases b with
    | ofNat n => exact negSucc_inI64.mpr (ldiff_lt ha)
    | negSucc n => exact negSucc_inI64.mpr (lt_of_le_of_lt Nat.and_le_left ha)

theorem inI64_xor {a b : Int} (ha : InI64 a) (hb : InI64 b) : InI64 (Int.xor a b) := by
  cases a with
  | ofNat m =>
    rw [nat_lt_of_inI64] at ha
    cases b with
    | ofNat n => exact nat_lt_of_inI64.mpr (Nat.xor_lt_two_pow ha (nat_lt_of_inI64.mp hb))
    | negSucc n => exact negSucc_inI64.mpr (Nat.xor_lt_two_pow ha (negSucc_inI64.mp hb))
  | negSucc m =>
    rw [negSucc_inI64] at ha
    cases b with
    | ofNat n => exact negSucc_inI64.mpr (Nat.xor_lt_two_pow ha (nat_lt_of_inI64.mp hb))
    | negSucc n => exact nat_lt_of_inI64.mpr (Nat.xor_lt_two_pow ha (negSucc_inI64.mp hb))

theorem inI64_shr {a : Int} {n : Nat} (ha : InI64 a) : InI64 (a / 2 ^ n) := by
  obtain ⟨hlo, hhi⟩ := ha
  have hpos : (1 : Int) ≤ 2 ^ n := by exact_mod_cast Nat.one_le_two_pow
  refine ⟨?_, ?_⟩
  · rw [Int.le_ediv_iff_mul_le (by omega)]
    nlinarith
  · rw [Int.ediv_lt_iff_lt_mul (by omega)]
    nlinarith

theorem bmod_self {v : Int} (h : InI64 v) : v.bmod (2 ^ 64) = v := by
  obtain ⟨hlo, hhi⟩ := h
  apply Int.bmod_eq_of_le
  · norm_num at hlo ⊢
    omega
  · norm_num at hhi ⊢
    omega

/-- The round trip that stands for an overflow check of `<<`. -/
theorem shl_roundtrip {a : Int} {n : Nat} (hn : n < 64) :
    ((a * 2 ^ n).bmod (2 ^ 64)) >>> n = a ↔ InI64 (a * 2 ^ n) := by
  have hpos : (0 : Int) < 2 ^ n := by positivity
  have hle : (2 : Int) ^ n ≤ 2 ^ 63 := pow_le_pow_right₀ (by decide) (by omega)
  rw [Int.shiftRight_eq_div_pow]
  have hcast : ((2 ^ n : Nat) : Int) = 2 ^ n := by norm_cast
  constructor
  · intro h
    rw [hcast] at h
    have hlo := Int.le_bmod (x := a * 2 ^ n) (m := 2 ^ 64) (by decide)
    have hhi := Int.bmod_lt (x := a * 2 ^ n) (m := 2 ^ 64) (by decide)
    have hmod := Int.bmod_emod (x := a * 2 ^ n) (m := 2 ^ 64)
    generalize (a * 2 ^ n).bmod (2 ^ 64) = x at h hlo hhi hmod
    have hx := Int.mul_ediv_add_emod x (2 ^ n)
    have hrem := Int.emod_nonneg x hpos.ne'
    have hlt := Int.emod_lt_of_pos x hpos
    rw [h, mul_comm] at hx
    generalize a * 2 ^ n = y at hx hmod ⊢
    unfold InI64
    norm_num at hlo hhi hmod ⊢
    omega
  · intro h
    rw [bmod_self h, hcast]
    exact Int.mul_ediv_cancel a hpos.ne'

/-! ### Levels -/

theorem bind_ok {α β : Type} {m : Parse α} {f : α → Parse β} {p q : Parser} {a : α}
    (h : m p = .ok (a, q)) : (m >>= f) p = f a q := by
  change (m p).bind _ = _
  rw [h]
  rfl

theorem bind_error {α β : Type} {m : Parse α} {f : α → Parse β} {p : Parser} {e : Error}
    (h : m p = .error e) : (m >>= f) p = .error e := by
  change (m p).bind _ = _
  rw [h]
  rfl

/-- The operators of a level. -/
def opsAt : Nat → Token → Option (Int → Int → Parse Int)
  | 0 => orOps
  | 1 => xorOps
  | 2 => andOps
  | 3 => shiftOps
  | 4 => addOps
  | _ => mulOps

/-- The parser of a level. -/
def parserAt (atom : Parse Int) : Nat → Parse Int
  | 0 => parseOffsetOr atom
  | 1 => parseOffsetXor atom
  | 2 => parseOffsetAnd atom
  | 3 => parseOffsetShift atom
  | 4 => parseOffsetAdd atom
  | 5 => parseOffsetMul atom
  | _ => atom

theorem parserAt_level (atom : Parse Int) {l : Nat} (h : l < 6) :
    parserAt atom l = level (opsAt l) (parserAt atom (l + 1)) := by
  interval_cases l <;> rfl

/-- A step that ends at `q` with `v` if `c` holds, and with an error of the parser otherwise. -/
def Settles (m : Parse Int) (p : Parser) (c : Prop) (v : Int) (q : Parser) : Prop :=
  (c → m p = .ok (v, q)) ∧ (¬ c → ∃ e, m p = .error (.parseError e))

theorem BinOp.inI64 {op : BinOp} {a b : Int} (ha : InI64 a) (hb : InI64 b)
    (h : op.Defined a b) : InI64 (op.apply a b) := by
  cases op with
  | or => exact inI64_lor ha hb
  | xor => exact inI64_xor ha hb
  | and => exact inI64_land ha hb
  | shl => exact h.2
  | shr => exact inI64_shr ha
  | add => exact h
  | sub => exact h
  | mul => exact h
  | div => exact h.2

/-- What the parser does for an operator. -/
theorem opsAt_run (op : BinOp) : ∃ f, opsAt op.level op.token = some f ∧
    ∀ a b p, Settles (f a b) p (op.Defined a b) (op.apply a b) p := by
  cases op with
  | or => exact ⟨_, rfl, fun a b p => ⟨fun _ => rfl, fun h => absurd trivial h⟩⟩
  | xor => exact ⟨_, rfl, fun a b p => ⟨fun _ => rfl, fun h => absurd trivial h⟩⟩
  | and => exact ⟨_, rfl, fun a b p => ⟨fun _ => rfl, fun h => absurd trivial h⟩⟩
  | add => exact ⟨_, rfl, fun a b p => overflow_run (a + b) p⟩
  | sub => exact ⟨_, rfl, fun a b p => overflow_run (a - b) p⟩
  | mul => exact ⟨_, rfl, fun a b p => overflow_run (a * b) p⟩
  | div =>
    refine ⟨_, rfl, fun a b p => ?_⟩
    by_cases hb : b = 0
    · exact ⟨fun h => absurd hb h.1, fun _ => ⟨_, by simp only [hb, if_true]; rfl⟩⟩
    · obtain ⟨hok, herr⟩ := overflow_run (a.tdiv b) p
      simp only [if_neg hb]
      exact ⟨fun h => hok h.2, fun h => herr fun hi => h ⟨hb, hi⟩⟩
  | shr =>
    refine ⟨_, rfl, fun a b p => ?_⟩
    by_cases hb : 0 ≤ b ∧ b < 64
    · simp only [if_pos hb]
      refine ⟨fun _ => ?_, fun h => absurd hb h⟩
      rw [Int.shiftRight_eq_div_pow]
      exact congrArg (fun v => Except.ok (v, p)) (by simp [BinOp.apply])
    · simp only [if_neg hb]
      exact ⟨fun h => absurd h hb, fun _ => ⟨_, rfl⟩⟩
  | shl =>
    refine ⟨_, rfl, fun a b p => ?_⟩
    by_cases hb : 0 ≤ b ∧ b < 64
    · simp only [if_pos hb]
      have hiff := @shl_roundtrip a b.toNat (by omega)
      by_cases hfit : InI64 (a * 2 ^ b.toNat)
      · refine ⟨fun _ => ?_, fun h => absurd ⟨hb, hfit⟩ h⟩
        have hself : (a * 2 ^ b.toNat).bmod (2 ^ 64) = a * 2 ^ b.toNat := bmod_self hfit
        rw [if_neg (not_not.mpr (hiff.mpr hfit)), hself]
        rfl
      · refine ⟨fun h => absurd h.2 hfit, fun _ => ⟨"offset expression overflow", ?_⟩⟩
        rw [if_pos fun h => hfit (hiff.mp h)]
        rfl
    · simp only [if_neg hb]
      exact ⟨fun h => absurd h.1 hb, fun _ => ⟨_, rfl⟩⟩

theorem opsAt_token {l : Nat} (hl : l < 6) {t : Token} {f : Int → Int → Parse Int}
    (h : opsAt l t = some f) : ∃ op : BinOp, op.level = l ∧ t = op.token := by
  interval_cases l
  · change orOps t = _ at h
    unfold orOps at h
    split at h <;> cases h
    exact ⟨.or, rfl, rfl⟩
  · change xorOps t = _ at h
    unfold xorOps at h
    split at h <;> cases h
    exact ⟨.xor, rfl, rfl⟩
  · change andOps t = _ at h
    unfold andOps at h
    split at h <;> cases h
    exact ⟨.and, rfl, rfl⟩
  · change shiftOps t = _ at h
    unfold shiftOps at h
    split at h <;> cases h
    · exact ⟨.shl, rfl, rfl⟩
    · exact ⟨.shr, rfl, rfl⟩
  · change addOps t = _ at h
    unfold addOps at h
    split at h <;> cases h
    · exact ⟨.add, rfl, rfl⟩
    · exact ⟨.sub, rfl, rfl⟩
  · change mulOps t = _ at h
    unfold mulOps at h
    split at h <;> cases h
    · exact ⟨.mul, rfl, rfl⟩
    · exact ⟨.div, rfl, rfl⟩

theorem BinOp.level_lt (op : BinOp) : op.level < 6 := by
  cases op <;> decide

theorem BinOp.token_inj {op op' : BinOp} (h : op.token = op'.token) : op = op' := by
  cases op <;> cases op' <;> first | rfl | cases h

/-- No operator that binds at least as tightly as level `l` stands at `j`. -/
def Clear (tokens : List Spanned) (l j : Nat) : Prop :=
  ∀ op : BinOp, l ≤ op.level → tokAt tokens j ≠ some op.token

section
variable {tokens : List Spanned} {l i j d fuel : Nat} {t : Offset}

theorem Clear.none (h : Clear tokens l j) (hl : l < 6) :
    (tokAt tokens j).bind (opsAt l) = none := by
  rcases hb : (tokAt tokens j).bind (opsAt l) with _ | f
  · rfl
  · obtain ⟨t, ht, hf⟩ := Option.bind_eq_some_iff.mp hb
    obtain ⟨op, hop, rfl⟩ := opsAt_token hl hf
    exact absurd ht (h op hop.ge)

theorem Clear.mono {l' : Nat} (h : Clear tokens l j) (hl : l ≤ l') : Clear tokens l' j :=
  fun op hop => h op (hl.trans hop)

theorem clear_op {op : BinOp} (h : tokAt tokens j = some op.token) :
    Clear tokens (op.level + 1) j := by
  intro op' hlevel ht
  rw [h] at ht
  obtain rfl := BinOp.token_inj (Option.some.inj ht)
  omega

theorem Written.bound (h : Written tokens l i j t) : i < j ∧ j ≤ tokens.length := by
  induction h with
  | num ht _ => exact ⟨Nat.lt_succ_self _, tokAt_lt ht⟩
  | neg _ _ ih => exact ⟨by omega, ih.2⟩
  | paren _ _ hclose ih => exact ⟨by omega, tokAt_lt hclose⟩
  | tighter _ _ ih => exact ih
  | bin _ _ _ ihl ihr => exact ⟨by omega, ihr.2⟩

/-- Every intermediate result of a valid expression fits an `i64`. -/
theorem Written.inI64 (h : Written tokens l i j t) (hv : t.Valid d) : InI64 t.value := by
  induction h generalizing d with
  | num ht hn =>
    refine nat_lt_of_inI64.mpr (lt_of_le_of_lt hn (by decide))
  | neg _ _ ih => exact hv.2.2
  | paren _ _ _ ih => exact ih hv.2
  | tighter _ _ ih => exact ih hv
  | bin _ _ _ ihl ihr => exact BinOp.inI64 (ihl hv.1) (ihr hv.2.1) hv.2.2

/-- The parser of a level reads the expression, as long as no operator of that level or a tighter
one follows. -/
def Reads (tokens : List Spanned) (l i j : Nat) (t : Offset) : Prop :=
  ∀ fuel d, maxOffsetDepth < fuel + d → d ≤ maxOffsetDepth → Clear tokens l j →
    Settles (parserAt (parseOffsetAtom fuel) l) ⟨tokens, i, d⟩ (t.Valid d) t.value ⟨tokens, j, d⟩

/-- The loop of a level with `n` turns left behind the first operand. -/
def loopFrom (fuel l n : Nat) : Parse Int := do
  let lhs ← parserAt (parseOffsetAtom fuel) (l + 1)
  levelLoop (opsAt l) (parserAt (parseOffsetAtom fuel) (l + 1)) n lhs

/-- The loop of a level comes to the value of the expression and goes on behind it. -/
def Chains (tokens : List Spanned) (l i j : Nat) (t : Offset) : Prop :=
  ∀ fuel d, maxOffsetDepth < fuel + d → d ≤ maxOffsetDepth → Clear tokens (l + 1) j →
    ∃ m ≤ j - i, ∀ n,
      (t.Valid d → loopFrom fuel l (n + m) ⟨tokens, i, d⟩ =
        levelLoop (opsAt l) (parserAt (parseOffsetAtom fuel) (l + 1)) n t.value ⟨tokens, j, d⟩) ∧
      (¬ t.Valid d → ∃ e, loopFrom fuel l (n + m) ⟨tokens, i, d⟩ = .error (.parseError e))

theorem armed_parserAt {A : Token → Bool} {B : Option Token → Prop} [Admits A B] (fuel l : Nat) :
    Armed A B (parserAt (parseOffsetAtom fuel) l) := by
  have hatom : Armed A B (parseOffsetAtom fuel) := armed_parseOffsetAtom fuel
  have hmul := armed_level passes_mulOps hatom
  have hadd := armed_level passes_addOps hmul
  have hshift := armed_level passes_shiftOps hadd
  have hand := armed_level passes_andOps hshift
  have hxor := armed_level passes_xorOps hand
  unfold parserAt
  split
  · exact armed_level passes_orOps hxor
  · exact hxor
  · exact hand
  · exact hshift
  · exact hadd
  · exact hmul
  · exact hatom

theorem quiet_parserAt (fuel l : Nat) : Quiet (parserAt (parseOffsetAtom fuel) l) := by
  have h : Armed calm (fun _ => True) (parserAt (parseOffsetAtom fuel) l) := armed_parserAt fuel l
  exact Passes.quiet fun p => (h p trivial).toPassesAt

theorem parserAt_run (hl : l < 6) (p : Parser) :
    parserAt (parseOffsetAtom fuel) l p = loopFrom fuel l p.tokens.length p := by
  rw [parserAt_level _ hl]
  change (parserAt (parseOffsetAtom fuel) (l + 1) p).bind _ =
    (parserAt (parseOffsetAtom fuel) (l + 1) p).bind _
  cases hrun : parserAt (parseOffsetAtom fuel) (l + 1) p with
  | error e => rfl
  | ok r =>
    change levelLoop _ _ r.2.tokens.length r.1 r.2 = levelLoop _ _ p.tokens.length r.1 r.2
    rw [(quiet_parserAt fuel (l + 1) p r.1 r.2 hrun).1]

theorem Chains.reads (h : Chains tokens l i j t) (hl : l < 6) (hj : j ≤ tokens.length) :
    Reads tokens l i j t := by
  intro fuel d hfuel hd hclear
  obtain ⟨m, hm, hrun⟩ := h fuel d hfuel hd (hclear.mono (Nat.le_succ l))
  obtain ⟨hok, herr⟩ := hrun (tokens.length - m)
  have hn : tokens.length - m + m = tokens.length := by omega
  rw [hn] at hok herr
  refine ⟨fun hv => ?_, fun hv => ?_⟩
  · rw [parserAt_run hl, hok hv]
    exact levelLoop_none (p := ⟨tokens, j, d⟩) (hclear.none hl)
  · rw [parserAt_run hl]
    exact herr hv

/-- An operand by itself. -/
theorem Reads.chains (h : Reads tokens (l + 1) i j t) : Chains tokens l i j t := by
  intro fuel d hfuel hd hclear
  obtain ⟨hok, herr⟩ := h fuel d hfuel hd hclear
  refine ⟨0, Nat.zero_le _, fun n => ⟨fun hv => ?_, fun hv => ?_⟩⟩
  · exact bind_ok (hok hv)
  · obtain ⟨e, he⟩ := herr hv
    exact ⟨e, bind_error he⟩

theorem Chains.bin {op : BinOp} {k : Nat} {a b : Offset} (ha : Chains tokens op.level i j a)
    (ht : tokAt tokens j = some op.token) (hb : Reads tokens (op.level + 1) (j + 1) k b)
    (hij : i < j) (hjk : j + 1 < k) : Chains tokens op.level i k (.bin op a b) := by
  intro fuel d hfuel hd hclear
  obtain ⟨m, hm, hrun⟩ := ha fuel d hfuel hd (clear_op ht)
  obtain ⟨hokb, herrb⟩ := hb fuel d hfuel hd hclear
  obtain ⟨f, hf, hsettle⟩ := opsAt_run op
  refine ⟨m + 1, by omega, fun n => ?_⟩
  obtain ⟨hok, herr⟩ := hrun (n + 1)
  have hn : n + (m + 1) = n + 1 + m := by omega
  rw [hn]
  by_cases hva : a.Valid d
  · have hnext : next (⟨tokens, j, d⟩ : Parser) = ⟨tokens, j + 1, d⟩ := rfl
    rw [hok hva, levelLoop_some (p := ⟨tokens, j, d⟩) ht hf, hnext]
    by_cases hvb : b.Valid d
    · obtain ⟨hokf, herrf⟩ := hsettle a.value b.value ⟨tokens, k, d⟩
      refine ⟨fun hv => ?_, fun hv => ?_⟩
      · rw [bind_ok (hokb hvb), bind_ok (hokf hv.2.2)]
        rfl
      · obtain ⟨e, he⟩ := herrf fun hdef => hv ⟨hva, hvb, hdef⟩
        exact ⟨e, by rw [bind_ok (hokb hvb), bind_error he]⟩
    · obtain ⟨e, he⟩ := herrb hvb
      exact ⟨fun hv => absurd hv.2.1 hvb, fun _ => ⟨e, bind_error he⟩⟩
  · exact ⟨fun hv => absurd hv.1 hva, fun _ => herr hva⟩

/-! ### Operands -/

theorem nestedOffset_run {cost : Nat} {f : Parse Int} {c : Prop} {v : Int}
    (hf : d + cost ≤ maxOffsetDepth →
      Settles f ⟨tokens, i, d + cost⟩ c v ⟨tokens, j, d + cost⟩) :
    Settles (nestedOffset cost f) ⟨tokens, i, d⟩ (d + cost ≤ maxOffsetDepth ∧ c) v
      ⟨tokens, j, d⟩ := by
  unfold Settles
  change (_ → (if d + cost > maxOffsetDepth then _ else _ : Parse Int) ⟨tokens, i, d + cost⟩ = _) ∧
    (_ → ∃ e, (if d + cost > maxOffsetDepth then _ else _ : Parse Int) ⟨tokens, i, d + cost⟩ = _)
  by_cases hd : d + cost ≤ maxOffsetDepth
  · rw [if_neg (Nat.not_lt.mpr hd)]
    obtain ⟨hok, herr⟩ := hf hd
    refine ⟨fun h => ?_, fun h => ?_⟩
    · rw [bind_ok (hok h.2)]
      change Except.ok (v, (⟨tokens, j, d + cost - cost⟩ : Parser)) = _
      rw [Nat.add_sub_cancel]
    · obtain ⟨e, he⟩ := herr fun hc => h ⟨hd, hc⟩
      exact ⟨e, bind_error he⟩
  · rw [if_pos (Nat.lt_of_not_le hd)]
    exact ⟨fun h => absurd h.1 hd, fun _ => ⟨_, rfl⟩⟩

/-- The parser of an operand, for each of its three forms. -/
theorem atom_num {n : UInt64} (ht : tokAt tokens i = some (.num n)) (hn : n.toNat ≤ 0xffffffff) :
    parseOffsetAtom (fuel + 1) ⟨tokens, i, d⟩ = .ok ((n.toNat : Int), ⟨tokens, i + 1, d⟩) := by
  have hu32 : parseU32 ⟨tokens, i, d⟩ = .ok (n.toUInt32, ⟨tokens, i + 1, d⟩) := by
    unfold parseU32
    rw [bind_curTok, advance_bind (p := ⟨tokens, i, d⟩) ht]
    have hle : ¬ n > 0xffffffff := by
      rw [gt_iff_lt, UInt64.lt_iff_toNat_lt]
      exact Nat.not_lt.mpr hn
    change (if n > 0xffffffff then _ else _ : Parse UInt32) _ = _
    rw [if_neg hle]
    rfl
  rw [parseOffsetAtom, bind_curTok, tok_at, ht]
  refine (bind_ok hu32).trans ?_
  rw [UInt64.toNat_toUInt32, Nat.mod_eq_of_lt (by omega)]
  rfl

theorem atom_neg (ht : tokAt tokens i = some .minus) :
    parseOffsetAtom (fuel + 1) ⟨tokens, i, d⟩ = (do
      let val ← nestedOffset 1 (parseOffsetAtom fuel)
      overflow (-val) : Parse Int) ⟨tokens, i + 1, d⟩ := by
  rw [parseOffsetAtom, bind_curTok, tok_at, ht]
  exact advance_bind (p := ⟨tokens, i, d⟩) ht _

theorem atom_paren (ht : tokAt tokens i = some .lParen) :
    parseOffsetAtom (fuel + 1) ⟨tokens, i, d⟩ = (do
      let val ← nestedOffset offsetParenCost (parseOffsetOr (parseOffsetAtom fuel))
      expect .rParen
      return val : Parse Int) ⟨tokens, i + 1, d⟩ := by
  rw [parseOffsetAtom, bind_curTok, tok_at, ht]
  exact advance_bind (p := ⟨tokens, i, d⟩) ht _

theorem expect_run {u : Token} (ht : tokAt tokens i = some u) :
    expect u ⟨tokens, i, d⟩ = .ok ((), ⟨tokens, i + 1, d⟩) := by
  change (eat u ⟨tokens, i, d⟩).bind _ = _
  rw [eat_run, tok_at, if_pos ht]
  rfl

/-- The parser reads every expression as it is written. -/
theorem Written.reads (h : Written tokens l i j t) :
    (l < 6 → Chains tokens l i j t) ∧ Reads tokens l i j t := by
  induction h with
  | num ht hn =>
    refine ⟨fun hl => absurd hl (by decide), fun fuel d hfuel hd _ => ?_⟩
    obtain ⟨f, rfl⟩ : ∃ f, fuel = f + 1 := ⟨fuel - 1, by omega⟩
    exact ⟨fun _ => atom_num ht hn, fun hv => absurd trivial hv⟩
  | @neg i j u ht h ih =>
    refine ⟨fun hl => absurd hl (by decide), fun fuel d hfuel hd hclear => ?_⟩
    obtain ⟨f, rfl⟩ : ∃ f, fuel = f + 1 := ⟨fuel - 1, by omega⟩
    obtain ⟨hok, herr⟩ := nestedOffset_run fun hle =>
      ih.2 f (d + 1) (by omega) hle hclear
    unfold Settles
    change (_ → parseOffsetAtom (f + 1) _ = _) ∧ (_ → ∃ e, parseOffsetAtom (f + 1) _ = _)
    rw [atom_neg ht]
    by_cases hinner : d + 1 ≤ maxOffsetDepth ∧ u.Valid (d + 1)
    · obtain ⟨hokv, herrv⟩ := overflow_run (-u.value) ⟨tokens, j, d⟩
      have hrun : nestedOffset 1 (parseOffsetAtom f) ⟨tokens, i + 1, d⟩ =
          .ok (u.value, ⟨tokens, j, d⟩) := hok hinner
      rw [bind_ok hrun]
      exact ⟨fun hv => hokv hv.2.2, fun hv => herrv fun hfit => hv ⟨hinner.1, hinner.2, hfit⟩⟩
    · obtain ⟨e, he⟩ := herr hinner
      exact ⟨fun hv => absurd ⟨hv.1, hv.2.1⟩ hinner, fun _ => ⟨e, bind_error he⟩⟩
  | paren ht h hclose ih =>
    refine ⟨fun hl => absurd hl (by decide), fun fuel d hfuel hd _ => ?_⟩
    obtain ⟨f, rfl⟩ : ∃ f, fuel = f + 1 := ⟨fuel - 1, by omega⟩
    have hclear : Clear tokens 0 _ := fun op _ hop => by
      rw [hclose] at hop
      cases op <;> cases hop
    obtain ⟨hok, herr⟩ := nestedOffset_run fun hle =>
      ih.2 f (d + offsetParenCost) (by simp only [offsetParenCost] at hle ⊢; omega) hle hclear
    unfold Settles
    change (_ → parseOffsetAtom (f + 1) _ = _) ∧ (_ → ∃ e, parseOffsetAtom (f + 1) _ = _)
    rw [atom_paren ht]
    refine ⟨fun hv => ?_, fun hv => ?_⟩
    · refine (bind_ok (hok hv)).trans (bind_ok (a := ()) ?_)
      exact expect_run hclose
    · obtain ⟨e, he⟩ := herr hv
      exact ⟨e, bind_error he⟩
  | tighter hl h ih =>
    have hchains := ih.2.chains
    exact ⟨fun _ => hchains, hchains.reads hl h.bound.2⟩
  | @bin i j k op a b hl ht hr ihl ihr =>
    have hchains := (ihl.1 op.level_lt).bin ht ihr.2 hl.bound.1 hr.bound.1
    exact ⟨fun _ => hchains, hchains.reads op.level_lt hr.bound.2⟩

end

/-- The integers an `i32` holds. -/
def InI32 (v : Int) : Prop := -2 ^ 31 ≤ v ∧ v < 2 ^ 31

/-- An offset expression that is written from `i` up to `j`, with no operator behind it, is read
to its end and comes to its exact value if it is valid and the value fits an `i32`; otherwise it
is an error. The depth is what it was before. -/
theorem parseOffsetExpr_exact (tokens : List Spanned) (i j d : Nat) (t : Offset)
    (hd : d ≤ maxOffsetDepth) (h : Written tokens 0 i j t)
    (hend : ∀ op : BinOp, tokAt tokens j ≠ some op.token) :
    (t.Valid d ∧ InI32 t.value → InI64 t.value ∧ ∃ v : Int32, v.toInt = t.value ∧
      parseOffsetExpr ⟨tokens, i, d⟩ = .ok (v, ⟨tokens, j, d⟩)) ∧
    (¬ (t.Valid d ∧ InI32 t.value) →
      ∃ m, parseOffsetExpr ⟨tokens, i, d⟩ = .error (.parseError m)) := by
  obtain ⟨hok, herr⟩ := h.reads.2 (maxOffsetDepth + 1) d (by omega) hd fun op _ => hend op
  refine ⟨fun ⟨hv, hfit⟩ => ⟨h.inI64 hv, Int32.ofInt t.value, ?_, ?_⟩, fun hno => ?_⟩
  · exact Int32.toInt_ofInt_of_le hfit.1 hfit.2
  · refine (bind_ok (hok hv)).trans ?_
    rw [if_pos (show -2 ^ 31 ≤ t.value ∧ t.value < 2 ^ 31 from hfit)]
    rfl
  · by_cases hv : t.Valid d
    · have hfit : ¬ InI32 t.value := fun hfit => hno ⟨hv, hfit⟩
      refine ⟨"offset expression out of range: " ++ toString t.value, (bind_ok (hok hv)).trans ?_⟩
      rw [if_neg (show ¬ (-2 ^ 31 ≤ t.value ∧ t.value < 2 ^ 31) from hfit)]
      rfl
    · obtain ⟨e, he⟩ := herr hv
      exact ⟨e, bind_error he⟩

/-- The tokens of `12 + 2 * 4`. -/
def twelvePlusEight : List Spanned :=
  [⟨.num 12, 0⟩, ⟨.plus, 3⟩, ⟨.num 2, 5⟩, ⟨.star, 7⟩, ⟨.num 4, 9⟩]

theorem parseOffsetExpr_twenty : ∃ v : Int32, v.toInt = 20 ∧
    parseOffsetExpr ⟨twelvePlusEight, 0, 0⟩ = .ok (v, ⟨twelvePlusEight, 5, 0⟩) := by
  have hup : ∀ {l i j t}, l < 6 → Written twelvePlusEight (l + 1) i j t →
      Written twelvePlusEight l i j t := fun hl h => .tighter hl h
  have hprod : Written twelvePlusEight 5 2 5 (.bin .mul (.num 2) (.num 4)) :=
    @Written.bin _ _ _ _ .mul _ _ (hup (by decide) (.num (n := 2) rfl (by decide))) rfl
      (.num (n := 4) rfl (by decide))
  have hsum : Written twelvePlusEight 4 0 5 (.bin .add (.num 12) (.bin .mul (.num 2) (.num 4))) :=
    @Written.bin _ _ _ _ .add _ _
      (hup (by decide) (hup (by decide) (.num (n := 12) rfl (by decide)))) rfl hprod
  have hall := hup (by decide) (hup (by decide) (hup (by decide) (hup (by decide) hsum)))
  refine ((parseOffsetExpr_exact twelvePlusEight 0 5 0 _ (by decide) hall fun op => ?_).1
    ⟨?_, ?_⟩).2
  · nofun
  · exact ⟨trivial, ⟨trivial, trivial, by decide, by decide⟩, by decide, by decide⟩
  · exact ⟨by decide, by decide⟩

end PktBaffle.Proofs.Parser
