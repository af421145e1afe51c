import PktBaffle.Parser

namespace PktBaffle.Proofs.Parser
open PktBaffle.Lexer Parsing

def isPanic : Error → Prop
  | .panic _ => True
  | _ => False

/-- The dotted addresses among the tokens have as many octets as the lexer writes. -/
def Dotted (tokens : List Spanned) : Prop :=
  ∀ t ∈ tokens, ∀ octets parts, t.token = .ipv4 octets parts → 2 ≤ parts ∧ parts ≤ 4

/-- A parser that went forward over the same tokens. -/
structure Moved (p p' : Parser) : Prop where
  tokens : p'.tokens = p.tokens
  depth : p'.depth = p.depth
  le : p.pos ≤ p'.pos
  bound : p'.pos ≤ p.tokens.length

theorem Moved.trans {p q r : Parser} (h : Moved p q) (h' : Moved q r) : Moved p r where
  tokens := h'.tokens.trans h.tokens
  depth := h'.depth.trans h.depth
  le := h.le.trans h'.le
  bound := by simpa only [h.tokens] using h'.bound

theorem Moved.refl {p : Parser} (hp : p.pos ≤ p.tokens.length) : Moved p p :=
  ⟨rfl, rfl, le_rfl, hp⟩

/-- How a step may end: forward over the same tokens, or with an error, which is no panic as
long as the tokens are ones the lexer makes. -/
def Ends {α : Type} (p : Parser) : Except Error (α × Parser) → Prop
  | .ok (_, p') => Moved p p'
  | .error e => Dotted p.tokens → ¬ isPanic e

/-- A step that ends so from every position, at offset depth `b` or deeper. -/
def Safe {α : Type} (b : Nat) (m : Parse α) : Prop :=
  ∀ p : Parser, p.pos ≤ p.tokens.length → b ≤ p.depth → Ends p (m p)

section
variable {α β : Type} {b : Nat}

theorem Ends.bind {p : Parser} {m : Parse α} {f : α → Parse β} (hm : Ends p (m p))
    (hf : ∀ a p', m p = .ok (a, p') → Moved p p' → Ends p' (f a p')) :
    Ends p ((m >>= f) p) := by
  change Ends p ((m p).bind fun r => f r.1 r.2)
  cases h : m p with
  | error e =>
    rw [h] at hm
    exact hm
  | ok r =>
    rw [h] at hm
    have next := hf r.1 r.2 h hm
    change Ends p (f r.1 r.2)
    cases hr : f r.1 r.2 with
    | error e =>
      rw [hr] at next
      simpa only [Ends, hm.tokens] using next
    | ok s =>
      rw [hr] at next
      exact hm.trans next

theorem Safe.bind {m : Parse α} {f : α → Parse β} (hm : Safe b m) (hf : ∀ a, Safe b (f a)) :
    Safe b (m >>= f) := by
  intro p hp hb
  refine (hm p hp hb).bind fun a p' _ hmv => hf a p' ?_ ?_
  · simpa only [hmv.tokens] using hmv.bound
  · rw [hmv.depth]
    exact hb

theorem Safe.pure {a : α} : Safe b (pure a : Parse α) := fun _ hp _ => Moved.refl hp

theorem Safe.err {message : String} : Safe b (err message : Parse α) :=
  fun _ _ _ _ hpanic => hpanic

theorem Safe.ite {c : Prop} [Decidable c] {m m' : Parse α} (hm : Safe b m) (hm' : Safe b m') :
    Safe b (if c then m else m') := by
  split
  · exact hm
  · exact hm'

theorem Safe.get : Safe b (get : Parse Parser) := fun _ hp _ => Moved.refl hp

theorem Safe.peekTok {n : Nat} : Safe b (peekTok n) := fun _ hp _ => Moved.refl hp

theorem Safe.curTok : Safe b curTok := Safe.peekTok

/-- The token at the current position. -/
def tok (p : Parser) : Option Token := p.tokens[p.pos]?.map (·.token)

/-- A step that looks at the current token. -/
theorem Safe.looks {f : Option Token → Parse α}
    (h : ∀ (p : Parser) (t : Option Token), tok p = t → p.pos ≤ p.tokens.length → b ≤ p.depth →
      Ends p (f t p)) : Safe b (Parsing.curTok >>= f) :=
  fun p hp hb => h p (tok p) rfl hp hb

end

/-! ### Reading tokens -/

def next (p : Parser) : Parser := { p with pos := p.pos + 1 }

theorem tok_lt {p : Parser} {t : Token} (h : tok p = some t) : p.pos < p.tokens.length := by
  rw [tok, Option.map_eq_some_iff] at h
  obtain ⟨s, hs, -⟩ := h
  exact (List.getElem?_eq_some_iff.mp hs).1

theorem moved_next {p : Parser} {t : Token} (h : tok p = some t) : Moved p (next p) :=
  ⟨rfl, rfl, Nat.le_succ _, tok_lt h⟩

theorem bind_curTok {β : Type} (f : Option Token → Parse β) (p : Parser) :
    (curTok >>= f) p = f (tok p) p := rfl

theorem advance_run (p : Parser) :
    advance p = .ok (tok p, if (tok p).isSome then next p else p) := by
  change (if (tok p).isSome then _ else _ : Parse (Option Token)) p = _
  split <;> rfl

theorem advance_some {p : Parser} {t : Token} (h : tok p = some t) :
    advance p = .ok (some t, next p) := by
  rw [advance_run, h]
  rfl

theorem advance_none {p : Parser} (h : tok p = none) : advance p = .ok (none, p) := by
  rw [advance_run, h]
  rfl

theorem eat_run (t : Token) (p : Parser) :
    eat t p = if tok p = some t then .ok (true, next p) else .ok (false, p) := by
  change (if tok p = some t then _ else _ : Parse Bool) p = _
  split <;> rfl

theorem curTok_bind {β : Type} (f : Option Token → Parse β) (p : Parser) :
    (curTok >>= f) p = f (tok p) p := rfl

theorem get_bind {β : Type} (f : Parser → Parse β) (p : Parser) :
    ((get : Parse Parser) >>= f) p = f p p := rfl

/-- Stepping over a token that is there, then going on. -/
theorem advance_bind {β : Type} {p : Parser} {t : Token} (h : tok p = some t)
    (f : Option Token → Parse β) : (advance >>= f) p = f (some t) (next p) := by
  change (advance p).bind (fun r => f r.1 r.2) = _
  rw [advance_some h]
  rfl

section
variable {b : Nat}

theorem Safe.advance : Safe b advance := by
  intro p hp _
  cases h : tok p with
  | none =>
    rw [advance_none h]
    exact Moved.refl hp
  | some t =>
    rw [advance_some h]
    exact moved_next h

theorem Safe.eat {t : Token} : Safe b (eat t) := by
  intro p hp _
  rw [eat_run]
  split
  · rename_i h
    exact moved_next h
  · exact Moved.refl hp

theorem Safe.expect {t : Token} : Safe b (expect t) :=
  Safe.eat.bind fun ok => by
    cases ok
    · exact Safe.curTok.bind fun _ => Safe.err
    · exact Safe.pure

theorem safe_parseU32 : Safe b parseU32 := by
  refine Safe.curTok.bind fun _ => Safe.advance.bind fun t => ?_
  split
  · exact Safe.ite Safe.err Safe.pure
  · exact Safe.err

theorem safe_parseU16 : Safe b parseU16 :=
  safe_parseU32.bind fun _ => Safe.ite Safe.err Safe.pure

end

/-! ### Offset expressions -/

section
variable {b : Nat}

/-- The operators of a level cannot fail but with an error. -/
def SafeOps (ops : Token → Option (Int → Int → Parse Int)) : Prop :=
  ∀ b t apply, ops t = some apply → ∀ lhs rhs, Safe b (apply lhs rhs)

theorem safe_overflow {v : Int} : Safe b (overflow v) := by
  unfold overflow checkedOr
  split
  · exact Safe.pure
  · exact Safe.err

theorem safe_mulOps : SafeOps mulOps := by
  intro b t apply h lhs rhs
  unfold mulOps at h
  split at h <;> cases h
  · exact safe_overflow
  · exact Safe.ite Safe.err safe_overflow

theorem safe_addOps : SafeOps addOps := by
  intro b t apply h lhs rhs
  unfold addOps at h
  split at h <;> cases h
  · exact safe_overflow
  · exact safe_overflow

theorem safe_shiftOps : SafeOps shiftOps := by
  intro b t apply h lhs rhs
  unfold shiftOps at h
  split at h <;> cases h
  · exact Safe.ite (Safe.ite Safe.err Safe.pure) Safe.err
  · exact Safe.ite Safe.pure Safe.err

theorem safe_andOps : SafeOps andOps := by
  intro b t apply h lhs rhs
  unfold andOps at h
  split at h <;> cases h
  exact Safe.pure

theorem safe_xorOps : SafeOps xorOps := by
  intro b t apply h lhs rhs
  unfold xorOps at h
  split at h <;> cases h
  exact Safe.pure

theorem safe_orOps : SafeOps orOps := by
  intro b t apply h lhs rhs
  unfold orOps at h
  split at h <;> cases h
  exact Safe.pure

theorem levelLoop_none {ops : Token → Option (Int → Int → Parse Int)} {operand : Parse Int}
    {fuel : Nat} {lhs : Int} {p : Parser} (h : (tok p).bind ops = none) :
    levelLoop ops operand fuel lhs p = .ok (lhs, p) := by
  rw [levelLoop.eq_def]
  dsimp only
  rw [curTok_bind, h]
  rfl

/-- One turn of the loop of a level. -/
theorem levelLoop_some {ops : Token → Option (Int → Int → Parse Int)} {operand : Parse Int}
    {fuel : Nat} {lhs : Int} {p : Parser} {t : Token} {apply : Int → Int → Parse Int}
    (ht : tok p = some t) (hop : ops t = some apply) :
    levelLoop ops operand (fuel + 1) lhs p = (do
      let rhs ← operand
      levelLoop ops operand fuel (← apply lhs rhs) : Parse Int) (next p) := by
  have h : (tok p).bind ops = some apply := by rw [ht]; exact hop
  rw [levelLoop, curTok_bind, h]
  exact advance_bind ht _

/-- A step from the next position, seen from this one. -/
theorem Ends.next {α : Type} {p : Parser} {t : Token} (ht : tok p = some t)
    {r : Except Error (α × Parser)} (h : Ends (next p) r) : Ends p r := by
  cases r with
  | error e => exact h
  | ok r => exact (moved_next ht).trans h

/-- The loop of a level ends before its fuel does: every turn consumes an operator. -/
theorem levelLoop_ends {ops : Token → Option (Int → Int → Parse Int)} {operand : Parse Int}
    (hops : SafeOps ops) (hnext : Safe b operand) (fuel : Nat) :
    ∀ (lhs : Int) (p : Parser), p.pos ≤ p.tokens.length → b ≤ p.depth →
      p.tokens.length ≤ fuel + p.pos → Ends p (levelLoop ops operand fuel lhs p) := by
  induction fuel with
  | zero =>
    intro lhs p hp hb hfuel
    have hnone : tok p = none := by
      rw [tok, Option.map_eq_none_iff, List.getElem?_eq_none_iff]
      omega
    rw [levelLoop_none (by rw [hnone]; rfl)]
    exact Moved.refl hp
  | succ fuel ih =>
    intro lhs p hp hb hfuel
    cases happly : (tok p).bind ops with
    | none =>
      rw [levelLoop_none happly]
      exact Moved.refl hp
    | some apply =>
      obtain ⟨t, ht, hop⟩ := Option.bind_eq_some_iff.mp happly
      rw [levelLoop_some ht hop]
      refine Ends.next ht ((hnext (Parser.next p) (tok_lt ht) hb).bind fun rhs q _ hq => ?_)
      have hqp : q.pos ≤ q.tokens.length := by simpa only [hq.tokens] using hq.bound
      have hqb : b ≤ q.depth := by
        rw [hq.depth]
        exact hb
      refine (hops b t apply hop lhs rhs q hqp hqb).bind fun v r _ hr => ih v r ?_ ?_ ?_
      · simpa only [hr.tokens] using hr.bound
      · rw [hr.depth]
        exact hqb
      · have hlen : r.tokens.length = p.tokens.length := by
          rw [hr.tokens, hq.tokens]
          rfl
        have hle : p.pos + 1 ≤ r.pos := hq.le.trans hr.le
        omega

theorem safe_level {ops : Token → Option (Int → Int → Parse Int)} {operand : Parse Int}
    (hops : SafeOps ops) (hnext : Safe b operand) : Safe b (level ops operand) := by
  refine hnext.bind fun lhs => ?_
  intro p hp hb
  exact levelLoop_ends hops hnext _ lhs p hp hb (Nat.le_add_right _ _)

theorem safe_parseOffsetOr {atom : Parse Int} (h : Safe b atom) :
    Safe b (parseOffsetOr atom) :=
  safe_level safe_orOps (safe_level safe_xorOps (safe_level safe_andOps
    (safe_level safe_shiftOps (safe_level safe_addOps (safe_level safe_mulOps h)))))

/-- The budget is spent before the fuel is. -/
theorem safe_nestedOffset {cost : Nat} {f : Parse Int}
    (h : b + cost ≤ maxOffsetDepth → Safe (b + cost) f) : Safe b (nestedOffset cost f) := by
  intro p hp hb
  change Ends p ((if p.depth + cost > maxOffsetDepth then _ else _ : Parse Int)
    { p with depth := p.depth + cost })
  split
  · exact fun _ hpanic => hpanic
  · rename_i hdepth
    have hf := h (by omega) { p with depth := p.depth + cost } hp (by simp only; omega)
    revert hf
    change Ends _ _ → Ends p ((f { p with depth := p.depth + cost }).bind _)
    cases f { p with depth := p.depth + cost } with
    | error e => exact id
    | ok r =>
      intro hr
      refine ⟨hr.tokens, ?_, hr.le, hr.bound⟩
      change r.2.depth - cost = p.depth
      rw [hr.depth]
      exact Nat.add_sub_cancel _ _

theorem safe_parseOffsetAtom (fuel : Nat) (h : maxOffsetDepth < fuel + b) :
    b ≤ maxOffsetDepth → Safe b (parseOffsetAtom fuel) := by
  induction fuel generalizing b with
  | zero => omega
  | succ fuel ih =>
    intro hb
    rw [parseOffsetAtom]
    refine Safe.curTok.bind fun t => ?_
    split
    · refine Safe.advance.bind fun _ => (safe_nestedOffset fun hle => ?_).bind fun _ =>
        Safe.expect.bind fun _ => Safe.pure
      exact safe_parseOffsetOr (ih (by simp only [offsetParenCost] at hle ⊢; omega) hle)
    · refine Safe.advance.bind fun _ => (safe_nestedOffset fun hle => ?_).bind fun _ =>
        safe_overflow
      exact ih (by omega) hle
    · exact safe_parseU32.bind fun _ => Safe.pure

theorem safe_parseOffsetExpr : Safe 0 parseOffsetExpr :=
  (safe_parseOffsetOr (safe_parseOffsetAtom _ (by omega) (Nat.zero_le _))).bind fun _ =>
    Safe.ite Safe.pure Safe.err

end
/-! ### Byte access -/

theorem safe_parseSize : Safe 0 parseSize := by
  refine Safe.eat.bind fun colon => Safe.ite (Safe.curTok.bind fun t => ?_) Safe.pure
  split
  · exact Safe.advance.bind fun _ => Safe.pure
  · exact Safe.advance.bind fun _ => Safe.pure
  · exact Safe.advance.bind fun _ => Safe.pure
  · exact Safe.err

theorem safe_parseBrackets : Safe 0 parseBrackets :=
  Safe.expect.bind fun _ => safe_parseOffsetExpr.bind fun _ => Safe.ite Safe.err
    (safe_parseSize.bind fun _ => Safe.expect.bind fun _ => Safe.pure)

theorem safe_parseByteLoad {layer : Layer} : Safe 0 (parseByteLoad layer) :=
  safe_parseBrackets.bind fun _ => Safe.pure

theorem parseAluOps_ends (fuel : Nat) :
    ∀ (ops : List (ArithOp × UInt32)) (p : Parser), p.pos ≤ p.tokens.length →
      p.tokens.length ≤ fuel + p.pos → Ends p (parseAluOps fuel ops p) := by
  induction fuel with
  | zero =>
    intro ops p hp hfuel
    have hnone : tok p = none := by
      rw [tok, Option.map_eq_none_iff, List.getElem?_eq_none_iff]
      omega
    have hrun : parseAluOps 0 ops p = .ok (ops, p) := by
      rw [parseAluOps, curTok_bind, hnone]
      rfl
    rw [hrun]
    exact Moved.refl hp
  | succ fuel ih =>
    intro ops p hp hfuel
    rw [parseAluOps, curTok_bind]
    cases haop : (tok p).bind arithOp with
    | none => exact Moved.refl hp
    | some aop =>
      obtain ⟨t, ht, -⟩ := Option.bind_eq_some_iff.mp haop
      refine Ends.next ht ?_
      simp only [advance_bind ht]
      refine (safe_parseU32 (next p) (tok_lt ht) (Nat.zero_le _)).bind fun operand q _ hq =>
        ih _ q ?_ ?_
      · simpa only [hq.tokens] using hq.bound
      · have hlen : q.tokens.length = p.tokens.length := by
          rw [hq.tokens]
          rfl
        have hle : p.pos + 1 ≤ q.pos := hq.le
        omega

theorem safe_parseCmpop {b : Nat} : Safe b parseCmpop := by
  refine Safe.curTok.bind fun _ => Safe.advance.bind fun t => ?_
  split <;> first | exact Safe.pure | exact Safe.err

theorem safe_parseCmpRhs : Safe 0 parseCmpRhs := by
  refine Safe.curTok.bind fun _ => Safe.peekTok.bind fun _ => ?_
  split
  · exact Safe.advance.bind fun _ => safe_parseByteLoad.bind fun _ => Safe.pure
  · exact safe_parseU32.bind fun _ => Safe.pure

/-- What follows the brackets of a byte access. -/
theorem safe_byteAccess_tail {layer : Layer} {offset : Int32} {size : AccessSize} :
    Safe 0 (do
      let aluOps ← parseAluOps (← get).tokens.length []
      let op ← parseCmpop
      let rhs ← parseCmpRhs
      return Primitive.byteAccess ⟨layer, offset, size, aluOps, op, rhs⟩ : Parse Primitive) := by
  intro p hp _
  refine Ends.bind (m := get) (Moved.refl hp) fun r p' hr _ => ?_
  cases hr
  refine (parseAluOps_ends _ [] p hp (Nat.le_add_right _ _)).bind fun ops q _ hq => ?_
  have hop : Safe 0 (do
      let op ← parseCmpop
      return Primitive.byteAccess ⟨layer, offset, size, ops, op, ← parseCmpRhs⟩ :
        Parse Primitive) :=
    safe_parseCmpop.bind fun _ => safe_parseCmpRhs.bind fun _ => Safe.pure
  exact hop q (by simpa only [hq.tokens] using hq.bound) (Nat.zero_le _)

theorem safe_parseByteAccess {layer : Layer} : Safe 0 (parseByteAccess layer) :=
  safe_parseBrackets.bind fun _ => safe_byteAccess_tail

/-! ### Addresses, ports and directions -/

section
variable {dir : Dir}

theorem safe_parseIp : Safe 0 parseIp := by
  refine Safe.curTok.bind fun _ => Safe.advance.bind fun t => ?_
  split
  · exact Safe.pure
  · exact Safe.pure
  · exact Safe.ite Safe.pure Safe.err
  · exact Safe.err

theorem safe_parseMacAddr : Safe 0 parseMacAddr := by
  refine Safe.curTok.bind fun _ => Safe.advance.bind fun t => ?_
  split
  · exact Safe.pure
  · exact Safe.err

/-- The prefix length behind a `/`: the token before the position is the slash. -/
theorem parsePrefixLen_ends {family : String} {max : UInt64} {p : Parser}
    (h : tok p = some .slash) : Ends (next p) (parsePrefixLen family max (next p)) := by
  obtain ⟨t, ht, -⟩ := Option.map_eq_some_iff.mp h
  have hprev : (next p).tokens[(next p).pos - 1]? = some t := ht
  rw [parsePrefixLen, get_bind, hprev]
  refine Safe.advance.bind (fun t => ?_) (next p) (tok_lt h) (Nat.zero_le _)
  split
  · exact Safe.ite Safe.pure Safe.err
  · exact Safe.err

theorem safe_slash_parsePrefixLen {α : Type} {family : String} {max : UInt64}
    {f : UInt8 → Parse α} {other : Parse α} (hf : ∀ n, Safe 0 (f n)) (ho : Safe 0 other) :
    Safe 0 (do if ← eat .slash then f (← parsePrefixLen family max) else other) := by
  intro p hp hb
  change Ends p ((eat .slash p).bind fun r => (if r.1 = true then _ else _ : Parse α) r.2)
  rw [eat_run]
  split
  · rename_i hslash
    refine Ends.next hslash
      ((parsePrefixLen_ends hslash).bind fun n q _ hq => hf n q ?_ (Nat.zero_le _))
    simpa only [hq.tokens] using hq.bound
  · exact ho p hp hb

/-- The token at a position is one of the tokens, so its octets are counted right. -/
theorem octetMask_ends {p : Parser} (hp : p.pos ≤ p.tokens.length) {parts : UInt8}
    (h : Dotted p.tokens → 2 ≤ parts ∧ parts ≤ 4) : Ends p (octetMask parts p) := by
  unfold octetMask
  split
  · exact Moved.refl hp
  · rename_i hparts
    intro hd
    have := h hd
    exfalso
    apply hparts
    exact ⟨UInt8.le_trans (by decide) this.1, this.2⟩

theorem Dotted.tok {p : Parser} (hd : Dotted p.tokens) {octets : Vector UInt8 4} {parts : UInt8}
    (h : tok p = some (.ipv4 octets parts)) : 2 ≤ parts ∧ parts ≤ 4 := by
  obtain ⟨t, ht, he⟩ := Option.map_eq_some_iff.mp h
  exact hd t (List.mem_of_getElem? ht) octets parts he

theorem safe_parseHostAddr : Safe 0 (parseHostAddr dir) := by
  refine safe_parseIp.bind fun addr => ?_
  split
  · exact Safe.pure
  · exact safe_slash_parsePrefixLen (fun _ => Safe.ite Safe.err Safe.pure) Safe.pure

theorem safe_parseHost : Safe 0 (parseHost dir) := by
  refine Safe.looks fun p t ht hp hb => ?_
  split
  · rename_i octets parts
    split
    · refine Ends.next ht ?_
      rw [advance_bind ht]
      have hmask : Ends (next p) (octetMask parts (next p)) :=
        octetMask_ends (p := next p) (tok_lt ht) fun hd => Dotted.tok (p := p) hd ht
      exact hmask.bind fun _ q _ hq =>
        Safe.pure q (by simpa only [hq.tokens] using hq.bound) (Nat.zero_le _)
    · exact safe_parseHostAddr p hp hb
  · exact safe_parseHostAddr p hp hb

/-- The loop ends when the shifts that its fuel allows leave nothing of the address. -/
theorem safe_shiftNet {fuel : Nat} {addr mask : UInt32}
    (h : addr.toNat * 256 ^ fuel % 2 ^ 32 = 0) : Safe 0 (shiftNet fuel addr mask) := by
  induction fuel generalizing addr mask with
  | zero =>
    have hlt := addr.toNat_lt
    have hzero : addr = 0 := UInt32.toNat_inj.mp (by simpa using by omega)
    rw [shiftNet, hzero, if_neg (by simp)]
    exact Safe.pure
  | succ fuel ih =>
    rw [shiftNet]
    split
    · apply ih
      have hshift : (addr <<< 8).toNat = addr.toNat * 256 % 2 ^ 32 := by
        simp [UInt32.toNat_shiftLeft, Nat.shiftLeft_eq]
      rw [hshift, Nat.mod_mul_mod, mul_assoc, ← pow_succ']
      exact h
    · exact Safe.pure

theorem safe_parseNet6 {addr : Ipv6Addr} : Safe 0 (parseNet6 addr dir) :=
  safe_slash_parsePrefixLen (fun _ => Safe.ite Safe.err Safe.pure) (Safe.ite Safe.err Safe.pure)

theorem parseNet4_ends {addr : Ipv4Addr} {parts : UInt8} {p : Parser}
    (hp : p.pos ≤ p.tokens.length) (h : Dotted p.tokens → 2 ≤ parts ∧ parts ≤ 4) :
    Ends p (parseNet4 addr parts dir p) := by
  unfold parseNet4
  refine (Safe.eat p hp (Nat.zero_le _)).bind fun minus q _ hq => ?_
  have hqp : q.pos ≤ q.tokens.length := by simpa only [hq.tokens] using hq.bound
  split
  · exact fun _ hpanic => hpanic
  · change Ends q ((eat .slash q).bind fun r => (if r.1 = true then _ else _ : Parse Primitive) r.2)
    rw [eat_run]
    split
    · rename_i hslash
      refine Ends.next hslash ((parsePrefixLen_ends hslash).bind fun n r _ hr =>
        Safe.ite Safe.err Safe.pure r ?_ (Nat.zero_le _))
      simpa only [hr.tokens] using hr.bound
    · refine (Safe.eat q hqp (Nat.zero_le _)).bind fun mask r _ hr => ?_
      have hrp : r.pos ≤ r.tokens.length := by simpa only [hr.tokens] using hr.bound
      split
      · refine Safe.advance.bind (fun t => ?_) r hrp (Nat.zero_le _)
        split
        · exact Safe.ite Safe.err Safe.pure
        · exact Safe.err
      · refine (octetMask_ends hrp ?_).bind fun _ u _ hu =>
          Safe.pure u (by simpa only [hu.tokens] using hu.bound) (Nat.zero_le _)
        rw [hr.tokens, hq.tokens]
        exact h

theorem safe_parseNet : Safe 0 (parseNet dir) := by
  refine Safe.curTok.bind fun _ => ?_
  intro p hp hb
  cases ht : tok p with
  | none =>
    refine Ends.bind (Safe.advance p hp hb) fun t q hrun hq => ?_
    rw [advance_none ht] at hrun
    cases hrun
    exact fun _ hpanic => hpanic
  | some t =>
    rw [advance_bind ht]
    refine Ends.next ht ?_
    cases t with
    | ipv4 octets parts =>
      exact parseNet4_ends (p := next p) (tok_lt ht) fun hd => Dotted.tok (p := p) hd ht
    | num n =>
      refine Safe.ite ((safe_shiftNet ?_).bind fun _ => Safe.pure) Safe.err (next p) (tok_lt ht)
        (Nat.zero_le _)
      exact Nat.mul_mod_left _ _
    | ipv6 addr => exact safe_parseNet6 (next p) (tok_lt ht) (Nat.zero_le _)
    | _ => exact fun _ hpanic => hpanic

theorem safe_parsePort {proto : Option Proto} : Safe 0 (parsePort dir proto) :=
  safe_parseU16.bind fun _ => Safe.pure

theorem safe_parsePortrange {proto : Option Proto} : Safe 0 (parsePortrange dir proto) :=
  safe_parseU16.bind fun _ => Safe.expect.bind fun _ => safe_parseU16.bind fun _ => Safe.pure

theorem safe_portOr {proto : Proto} {otherwise : Parse Primitive} (h : Safe 0 otherwise) :
    Safe 0 (portOr dir proto otherwise) :=
  Safe.eat.bind fun _ => Safe.ite safe_parsePort
    (Safe.eat.bind fun _ => Safe.ite safe_parsePortrange h)

theorem safe_parseDir : Safe 0 parseDir := by
  refine Safe.curTok.bind fun t => ?_
  split
  · refine Safe.advance.bind fun _ => Safe.eat.bind fun _ => Safe.curTok.bind fun _ => ?_
    refine Safe.ite (Safe.advance.bind fun _ => Safe.pure) ?_
    refine Safe.eat.bind fun _ => Safe.curTok.bind fun _ => ?_
    exact Safe.ite (Safe.advance.bind fun _ => Safe.pure) Safe.pure
  · exact Safe.advance.bind fun _ => Safe.pure
  · exact Safe.pure

theorem safe_parseDirProto {proto : Proto} {name : String} :
    Safe 0 (parseDirProto dir proto name) :=
  Safe.advance.bind fun _ => safe_portOr (Safe.curTok.bind fun _ => Safe.err)

theorem safe_parseAfterDir : Safe 0 (parseAfterDir dir) := by
  refine Safe.curTok.bind fun t => ?_
  split
  · exact Safe.advance.bind fun _ => safe_parseHost
  · exact Safe.advance.bind fun _ => safe_parseNet
  · exact Safe.advance.bind fun _ => safe_parsePort
  · exact Safe.advance.bind fun _ => safe_parsePortrange
  · exact safe_parseDirProto
  · exact safe_parseDirProto
  · exact safe_parseDirProto
  · exact safe_parseHost
  · exact safe_parseHost
  · exact safe_parseHost
  · exact Safe.err

end

/-! ### Primitives -/

theorem safe_parseProtoNum : Safe 0 parseProtoNum := by
  refine Safe.curTok.bind fun t => ?_
  split
  · exact Safe.advance.bind fun _ => Safe.pure
  · exact safe_parseU32.bind fun _ => Safe.ite Safe.err Safe.pure

theorem safe_parseEtherArg : Safe 0 parseEtherArg := by
  refine Safe.curTok.bind fun _ => Safe.ite safe_parseByteAccess ?_
  refine safe_parseDir.bind fun dir => Safe.curTok.bind fun t => ?_
  rcases t with _ | t
  · exact Safe.err
  cases t with
  | host => exact Safe.advance.bind fun _ => safe_parseMacAddr.bind fun _ => Safe.pure
  | mac => exact safe_parseMacAddr.bind fun _ => Safe.pure
  | proto =>
    refine Safe.advance.bind fun _ => Safe.curTok.bind fun et => ?_
    split
    · exact Safe.advance.bind fun _ => Safe.pure
    · exact safe_parseU32.bind fun _ => Safe.pure
  | broadcast | multicast | ip | ip6 | arp | rarp =>
    exact Safe.advance.bind fun _ => Safe.pure
  | _ => exact Safe.err

theorem safe_parseLen {op : CmpOp} : Safe 0 (parseLen op) :=
  safe_parseU32.bind fun _ => Safe.pure

theorem safe_byteAccessOr {layer : Layer} {otherwise : Parse Primitive}
    (h : Safe 0 otherwise) : Safe 0 (byteAccessOr layer otherwise) :=
  Safe.curTok.bind fun _ => Safe.ite safe_parseByteAccess h

theorem safe_optNum : Safe 0 optNum := by
  refine Safe.curTok.bind fun t => ?_
  split
  · exact Safe.advance.bind fun _ => Safe.pure
  · exact Safe.pure

theorem safe_parseIpPrim : Safe 0 parseIpPrim := by
  refine safe_byteAccessOr (Safe.eat.bind fun _ => Safe.ite ?_ ?_)
  · exact safe_parseProtoNum.bind fun _ => Safe.pure
  refine Safe.eat.bind fun _ => Safe.ite ?_ ?_
  · exact safe_parseProtoNum.bind fun _ => Safe.pure
  refine Safe.eat.bind fun _ => Safe.ite Safe.pure ?_
  exact Safe.eat.bind fun _ => Safe.ite Safe.pure Safe.pure

theorem safe_parseIp6Prim : Safe 0 parseIp6Prim := by
  refine safe_byteAccessOr (Safe.eat.bind fun _ => Safe.ite ?_ ?_)
  · exact safe_parseProtoNum.bind fun _ => Safe.pure
  refine Safe.eat.bind fun _ => Safe.ite ?_ ?_
  · exact safe_parseProtoNum.bind fun _ => Safe.pure
  exact Safe.eat.bind fun _ => Safe.ite Safe.pure Safe.pure

theorem safe_parsePppoes : Safe 0 parsePppoes := by
  refine Safe.curTok.bind fun t => ?_
  split
  · exact Safe.ite Safe.err (Safe.advance.bind fun _ => Safe.pure)
  · exact Safe.pure

/-- The tokens a primitive may begin with. -/
def startsPrimitive (t : Token) : Bool :=
  looksLikePrimitiveStart t && t ≠ .not && t ≠ .bang && t ≠ .lParen

theorem safe_parsePrimitive : Safe 0 parsePrimitive := by
  refine Safe.curTok.bind fun t => ?_
  rcases t with _ | t
  · exact Safe.err
  cases t with
  | less | greater => exact Safe.advance.bind fun _ => safe_parseLen
  | len => exact Safe.advance.bind fun _ => safe_parseCmpop.bind fun _ => safe_parseLen
  | ip => exact Safe.advance.bind fun _ => safe_parseIpPrim
  | ip6 => exact Safe.advance.bind fun _ => safe_parseIp6Prim
  | icmp | icmp6 => exact Safe.advance.bind fun _ => safe_byteAccessOr Safe.pure
  | sctp => exact Safe.advance.bind fun _ => safe_portOr Safe.pure
  | tcp | udp => exact Safe.advance.bind fun _ => safe_byteAccessOr (safe_portOr Safe.pure)
  | proto => exact Safe.advance.bind fun _ => safe_parseU32.bind fun _ => Safe.pure
  | vlan | mpls => exact Safe.advance.bind fun _ => safe_optNum.bind fun _ => Safe.pure
  | pppoes => exact Safe.advance.bind fun _ => safe_parsePppoes
  | gateway => exact Safe.advance.bind fun _ => Safe.advance.bind fun _ => Safe.err
  | ether => exact Safe.advance.bind fun _ => safe_parseEtherArg
  | src | dst => exact safe_parseDir.bind fun _ => safe_parseAfterDir
  | host => exact Safe.advance.bind fun _ => safe_parseHost
  | net => exact Safe.advance.bind fun _ => safe_parseNet
  | port => exact Safe.advance.bind fun _ => safe_parsePort
  | portRange => exact Safe.advance.bind fun _ => safe_parsePortrange
  | ipv4 _ parts => exact Safe.ite Safe.err safe_parseHost
  | ipv6 => exact safe_parseHost
  | lBracket => exact safe_parseByteAccess
  | broadcast | multicast | arp | rarp | igmp | ah | esp | pim | igrp | vrrp | pppoed
  | inbound | outbound => exact Safe.advance.bind fun _ => Safe.pure
  | _ => exact Safe.err

/-! ### Progress -/

/-- A step that consumes a token if it succeeds. -/
def Past {α : Type} (p : Parser) : Except Error (α × Parser) → Prop
  | .ok (_, p') => p.pos < p'.pos
  | .error _ => True

section
variable {α β : Type} {p : Parser} {t : Token}

theorem past_advance {f : Option Token → Parse β} (ht : tok p = some t)
    (hf : Safe 0 (f (some t))) : Past p ((advance >>= f) p) := by
  rw [advance_bind ht]
  have h := hf (next p) (tok_lt ht) (Nat.zero_le _)
  revert h
  cases f (some t) (next p) with
  | error e => exact fun _ => trivial
  | ok r => exact fun h => h.le

theorem Past.bind {m : Parse α} {f : α → Parse β} (hp : p.pos ≤ p.tokens.length)
    (hs : Safe 0 m) (hm : Past p (m p)) (hf : ∀ a, Safe 0 (f a)) : Past p ((m >>= f) p) := by
  change Past p ((m p).bind fun r => f r.1 r.2)
  have hmv := hs p hp (Nat.zero_le _)
  revert hmv hm
  cases m p with
  | error e => exact fun _ _ => trivial
  | ok r =>
    intro hlt hmv
    have h := hf r.1 r.2 (by simpa only [hmv.tokens] using hmv.bound) (Nat.zero_le _)
    change Past p (f r.1 r.2)
    revert h
    cases f r.1 r.2 with
    | error e => exact fun _ => trivial
    | ok s => exact fun h => lt_of_lt_of_le hlt h.le

theorem past_expect (ht : tok p = some t) : Past p (expect t p) := by
  change Past p ((eat t p).bind fun r => _)
  rw [eat_run, if_pos ht]
  exact Nat.lt_succ_self _

theorem past_parseByteAccess {layer : Layer} (ht : tok p = some .lBracket) :
    Past p (parseByteAccess layer p) := by
  refine Past.bind (tok_lt ht).le safe_parseBrackets ?_ fun _ => safe_byteAccess_tail
  exact Past.bind (tok_lt ht).le Safe.expect (past_expect ht) fun _ =>
    safe_parseOffsetExpr.bind fun _ => Safe.ite Safe.err
      (safe_parseSize.bind fun _ => Safe.expect.bind fun _ => Safe.pure)

/-- A step that looks at the current token and goes on. -/
theorem past_looks {f : Option Token → Parse β} (h : Past p (f (tok p) p)) :
    Past p ((curTok >>= f) p) := h

theorem past_parseIp (ht : tok p = some t) : Past p (parseIp p) := by
  unfold parseIp
  refine past_looks (past_advance ht ?_)
  cases t with
  | num n => exact Safe.ite Safe.pure Safe.err
  | ipv4 | ipv6 => exact Safe.pure
  | _ => exact Safe.err

theorem past_parseHostAddr {dir : Dir} (ht : tok p = some t) :
    Past p (parseHostAddr dir p) := by
  refine Past.bind (tok_lt ht).le safe_parseIp (past_parseIp ht) fun addr => ?_
  split
  · exact Safe.pure
  · exact safe_slash_parsePrefixLen (fun _ => Safe.ite Safe.err Safe.pure) Safe.pure

theorem past_parseHost {dir : Dir} (ht : tok p = some t) : Past p (parseHost dir p) := by
  have haddr : Past p (parseHostAddr dir p) := past_parseHostAddr ht
  unfold parseHost
  refine past_looks ?_
  rw [ht]
  cases t with
  | ipv4 octets parts =>
    change Past p ((if 2 ≤ parts ∧ parts ≤ 3 then _ else _ : Parse Primitive) p)
    split
    · rw [advance_bind ht]
      change Past p ((octetMask parts (next p)).bind _)
      unfold octetMask
      split
      · exact Nat.lt_succ_self _
      · exact trivial
    · exact haddr
  | _ => exact haddr

theorem past_parseDir (ht : tok p = some .src ∨ tok p = some .dst) : Past p (parseDir p) := by
  unfold parseDir
  refine past_looks ?_
  rcases ht with ht | ht
  · rw [ht]
    refine past_advance ht (Safe.eat.bind fun _ => Safe.curTok.bind fun _ => ?_)
    refine Safe.ite (Safe.advance.bind fun _ => Safe.pure) ?_
    refine Safe.eat.bind fun _ => Safe.curTok.bind fun _ => ?_
    exact Safe.ite (Safe.advance.bind fun _ => Safe.pure) Safe.pure
  · rw [ht]
    exact past_advance ht Safe.pure

end

/-- `parse_primitive` never succeeds without consuming a token. -/
theorem past_parsePrimitive {p : Parser} {t : Token} (ht : tok p = some t) :
    Past p (parsePrimitive p) := by
  unfold parsePrimitive
  refine past_looks ?_
  rw [ht]
  cases t with
  | less | greater => exact past_advance ht safe_parseLen
  | len => exact past_advance ht (safe_parseCmpop.bind fun _ => safe_parseLen)
  | ip => exact past_advance ht safe_parseIpPrim
  | ip6 => exact past_advance ht safe_parseIp6Prim
  | icmp | icmp6 => exact past_advance ht (safe_byteAccessOr Safe.pure)
  | sctp => exact past_advance ht (safe_portOr Safe.pure)
  | tcp | udp => exact past_advance ht (safe_byteAccessOr (safe_portOr Safe.pure))
  | proto => exact past_advance ht (safe_parseU32.bind fun _ => Safe.pure)
  | vlan | mpls => exact past_advance ht (safe_optNum.bind fun _ => Safe.pure)
  | pppoes => exact past_advance ht safe_parsePppoes
  | gateway => exact past_advance ht (Safe.advance.bind fun _ => Safe.err)
  | ether => exact past_advance ht safe_parseEtherArg
  | src => exact Past.bind (tok_lt ht).le safe_parseDir (past_parseDir (.inl ht)) fun _ =>
      safe_parseAfterDir
  | dst => exact Past.bind (tok_lt ht).le safe_parseDir (past_parseDir (.inr ht)) fun _ =>
      safe_parseAfterDir
  | host => exact past_advance ht safe_parseHost
  | net => exact past_advance ht safe_parseNet
  | port => exact past_advance ht safe_parsePort
  | portRange => exact past_advance ht safe_parsePortrange
  | ipv4 _ parts =>
    change Past p ((if parts < 4 then _ else _ : Parse Primitive) p)
    split
    · exact trivial
    · exact past_parseHost ht
  | ipv6 => exact past_parseHost ht
  | lBracket => exact past_parseByteAccess ht
  | broadcast | multicast | arp | rarp | igmp | ah | esp | pim | igrp | vrrp | pppoed
  | inbound | outbound => exact past_advance ht Safe.pure
  | _ => exact trivial

/-- What `parse_primitive` accepts begins with a token of the juxtaposition list. -/
theorem parsePrimitive_starts {p : Parser} {x : Primitive} {q : Parser}
    (h : parsePrimitive p = .ok (x, q)) : ∃ t, tok p = some t ∧ startsPrimitive t := by
  by_contra hstart
  have hfails : ∃ e, parsePrimitive p = .error e := by
    unfold parsePrimitive
    rw [bind_curTok]
    cases ht : tok p with
    | none => exact ⟨_, rfl⟩
    | some t => cases t <;> first | exact absurd ⟨_, ht, rfl⟩ hstart | exact ⟨_, rfl⟩
  obtain ⟨e, he⟩ := hfails
  rw [he] at h
  cases h

end PktBaffle.Proofs.Parser
