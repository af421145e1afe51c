import PktBaffle.Proofs.Lexer.Tokens
import PktBaffle.Proofs.Parser.Qualifiers

namespace PktBaffle.Proofs.Parser
open PktBaffle.Lexer Parsing

/-- The token at `i` is the integer literal `v`. -/
def Literal (tokens : List Spanned) (i v : Nat) : Prop :=
  ∃ n, tokAt tokens i = some (.num n) ∧ n.toNat = v

/-- The token at `i` is a keyword that stands for `v`. -/
def Keyword {α : Type} (value : Token → Option α) (tokens : List Spanned) (i : Nat) (v : α) : Prop :=
  (tokAt tokens i).bind value = some v

/-- The operators and their literals from `k` on. -/
def Operators (tokens : List Spanned) (k : Nat) (ops : List (ArithOp × UInt32)) : Prop :=
  ∀ n (h : n < ops.length), (tokAt tokens (k + 2 * n)).bind arithOp = some ops[n].1 ∧
    Literal tokens (k + 2 * n + 1) ops[n].2.toNat

/-- What follows the brackets of a byte access, from `k` up to `j`: the operators with their
literals, the comparison, and its right-hand side. -/
structure Constants (tokens : List Spanned) (k j : Nat) (ba : ByteAccess) : Prop where
  operators : Operators tokens k ba.aluOps
  rhs : ∀ c, ba.rhs = .const c →
    j = k + 2 * ba.aluOps.length + 2 ∧ Literal tokens (j - 1) c.toNat

/-- Each number of a primitive whose tokens end at `j` is the literal it was written as, or what
a keyword in its place stands for. -/
def Faithful (tokens : List Spanned) (j : Nat) : Primitive → Prop
  | .proto (.num n) | .proto (.ip6Proto n) | .ipProtoChain n | .ip6ProtoChain n =>
    Literal tokens (j - 1) n.toNat ∨ Keyword protoNum tokens (j - 1) n
  | .etherProto et => Literal tokens (j - 1) et.toNat ∨ Keyword etherKeyword tokens (j - 1) et
  | .vlan (some id) => Literal tokens (j - 1) id.toNat
  | .mpls (some label) => Literal tokens (j - 1) label.toNat
  | .pppoeSession (some id) => Literal tokens (j - 1) id.toNat
  | .port port _ _ => Literal tokens (j - 1) port.toNat
  | .portRange lo hi _ _ =>
    Literal tokens (j - 3) lo.toNat ∧ Literal tokens (j - 1) hi.toNat
  | .len _ value => Literal tokens (j - 1) value.toNat
  | .net net _ => tokAt tokens (j - 2) = some .slash →
    ∃ n : UInt8, Literal tokens (j - 1) n.toNat ∧ n ≤ 32 ∧ net.mask = prefixMask n
  | .net6 net _ => Literal tokens (j - 1) net.prefixLen.toNat ∧ net.prefixLen ≤ 128 ∨
    tokAt tokens (j - 1) = some (.ipv6 net.addr) ∧ net.prefixLen = 128
  | .byteAccess ba => ∃ k, Constants tokens k j ba
  | _ => True

/-- The number behind `proto`, `vlan` or `ether proto` fits the field it is for. -/
def Fits (tokens : List Spanned) (i j : Nat) : Prop :=
  ∀ n, tokAt tokens (j - 1) = some (.num n) →
    (tokAt tokens i = some .proto → n.toNat ≤ 0xff) ∧
    (tokAt tokens i = some .vlan → n.toNat ≤ 0xffff) ∧
    (tokAt tokens i = some .ether → tokAt tokens (j - 2) = some .proto → n.toNat ≤ 0xffff)

/-- Numbers of at most 32 bits, as the lexer makes them. -/
def Short (tokens : List Spanned) : Prop :=
  ∀ i n, tokAt tokens i = some (.num n) → n.toNat ≤ 0xffffffff

theorem short_of_lexed {tokens : List Spanned} (h : ∀ t ∈ tokens, Lexer.Lexed t.token) :
    Short tokens := by
  intro i n hn
  obtain ⟨t, ht, he⟩ := Option.map_eq_some_iff.mp hn
  have hl := h t (List.mem_of_getElem? ht)
  rw [he] at hl
  exact hl

section
variable {tokens : List Spanned} {i : Nat} {dir : Dir}

theorem Literal.last {n : UInt64} {v : Nat} (h : tokAt tokens i = some (.num n))
    (hv : n.toNat = v) : Literal tokens (i + 1 - 1) v := ⟨n, h, hv⟩

/-! ### Narrowed literals -/

theorem toUInt32_exact {n : UInt64} (h : n.toNat ≤ 0xffffffff) : n.toNat = n.toUInt32.toNat := by
  rw [UInt64.toNat_toUInt32, Nat.mod_eq_of_lt (by omega)]

theorem toUInt16_exact {n : UInt64} (h : n.toNat ≤ 0xffff) : n.toNat = n.toUInt16.toNat := by
  rw [UInt64.toNat_toUInt16, Nat.mod_eq_of_lt (by omega)]

theorem toUInt8_exact {n : UInt64} (h : n.toNat ≤ 0xff) : n.toNat = n.toUInt8.toNat := by
  rw [UInt64.toNat_toUInt8, Nat.mod_eq_of_lt (by omega)]

theorem toUInt16_toUInt32_exact {n : UInt64} (h : n.toNat ≤ 0xffff) :
    n.toNat = n.toUInt32.toUInt16.toNat := by
  rw [UInt32.toNat_toUInt16, ← toUInt32_exact (by omega), Nat.mod_eq_of_lt (by omega)]

theorem toUInt8_toUInt32_exact {n : UInt64} (h : n.toNat ≤ 0xff) :
    n.toNat = n.toUInt32.toUInt8.toNat := by
  rw [UInt32.toNat_toUInt8, ← toUInt32_exact (by omega), Nat.mod_eq_of_lt (by omega)]

/-! ### Numbers read with a range check -/

theorem yields_parsePort {proto : Option Proto} :
    Yields tokens (parsePort dir proto) i fun x j => Faithful tokens j x :=
  Yields.bind (Yields.parseU16 fun _ ht hn =>
    Yields.pure (Literal.last ht (toUInt16_toUInt32_exact hn)))

theorem yields_parsePortrange {proto : Option Proto} :
    Yields tokens (parsePortrange dir proto) i fun x j => Faithful tokens j x :=
  Yields.bind (Yields.parseU16 fun _ hlo hnlo => Yields.bind (Yields.expect fun _ =>
    Yields.bind (Yields.parseU16 fun _ hhi hnhi => Yields.pure
      ⟨⟨_, hlo, toUInt16_toUInt32_exact hnlo⟩, ⟨_, hhi, toUInt16_toUInt32_exact hnhi⟩⟩)))

theorem yields_portOr {proto : Proto} {otherwise : Parse Primitive}
    (h : Yields tokens otherwise i fun x j => Faithful tokens j x) :
    Yields tokens (portOr dir proto otherwise) i fun x j => Faithful tokens j x := by
  refine Yields.bind (Yields.eat (fun _ => yields_parsePort) fun _ => ?_)
  exact Yields.bind (Yields.eat (fun _ => yields_parsePortrange) fun _ => h)

theorem yields_parseLen {op : CmpOp} :
    Yields tokens (parseLen op) i fun x j => Faithful tokens j x :=
  Yields.bind (Yields.parseU32 fun _ ht hn => Yields.pure (Literal.last ht (toUInt32_exact hn)))

theorem yields_parseProtoNum : Yields tokens parseProtoNum i fun n j =>
    Literal tokens (j - 1) n.toNat ∨ Keyword protoNum tokens (j - 1) n := by
  refine Yields.looks ?_
  cases h : (tokAt tokens i).bind protoNum with
  | some n =>
    obtain ⟨t, ht, -⟩ := Option.bind_eq_some_iff.mp h
    refine Yields.skip ht (Yields.pure ?_)
    exact Or.inr h
  | none =>
    refine Yields.bind (Yields.parseU32 fun n ht hn => Yields.ite (fun _ => Yields.err)
      fun hle => Yields.pure (Or.inl (Literal.last ht ?_)))
    have hnat : n.toUInt32.toNat ≤ 0xff := by simpa [UInt32.lt_iff_toNat_lt] using hle
    rw [← toUInt32_exact hn] at hnat
    exact toUInt8_toUInt32_exact hnat

theorem yields_parsePppoes : Yields tokens parsePppoes i fun x j => Faithful tokens j x := by
  refine Yields.looks ?_
  split
  · rename_i n ht
    refine Yields.ite (fun _ => Yields.err) fun hle => Yields.skip ht (Yields.pure
      (Literal.last ht (toUInt16_exact ?_)))
    simpa [UInt64.lt_iff_toNat_lt] using hle
  · exact Yields.pure trivial

/-! ### Networks -/

theorem yields_parsePrefixLen {family : String} {max : UInt64} (hmax : max.toNat ≤ 0xff) :
    Yields tokens (parsePrefixLen family max) i fun n j =>
      j = i + 1 ∧ Literal tokens i n.toNat ∧ n.toNat ≤ max.toNat := by
  unfold parsePrefixLen
  refine Yields.get ?_
  split
  · exact Yields.throw
  · refine Yields.bind (Yields.advance (fun _ => Yields.err) fun t ht => ?_)
    split
    · rename_i n hn
      cases hn
      refine Yields.ite (fun hle => Yields.pure ?_) fun _ => Yields.err
      have hnat : n.toNat ≤ max.toNat := UInt64.le_iff_toNat_le.mp hle
      have hexact := toUInt8_exact (hnat.trans hmax)
      exact ⟨rfl, ⟨n, ht, hexact⟩, hexact ▸ hnat⟩
    · exact Yields.err

theorem yields_octetMask {parts : UInt8} : Yields tokens (octetMask parts) i fun _ j => j = i :=
  Yields.ite (fun _ => Yields.pure rfl) fun _ => Yields.throw

/-- A network that no prefix length follows. -/
theorem faithful_net {net : IpNet} (h : tokAt tokens (i - 2) ≠ some .slash) :
    Faithful tokens i (.net net dir) := fun hs => absurd hs h

theorem yields_parseNet6 {addr : Ipv6Addr} (ht : tokAt tokens (i - 1) = some (.ipv6 addr)) :
    Yields tokens (parseNet6 addr dir) i fun x j => Faithful tokens j x := by
  refine Yields.bind (Yields.eat (fun hs => ?_) fun _ => ?_)
  · refine Yields.bind ((yields_parsePrefixLen (by decide)).mono ?_)
    rintro n j ⟨rfl, hn, hle⟩
    exact Yields.ite (fun _ => Yields.err) fun _ =>
      Yields.pure (Or.inl ⟨hn, UInt8.le_iff_toNat_le.mpr hle⟩)
  · change Yields tokens (if ipv6Nat addr &&& hostBits 128 ≠ 0 then _ else _) i _
    exact Yields.ite (fun _ => Yields.err) fun _ => Yields.pure (Or.inr ⟨ht, rfl⟩)

theorem yields_parseNet4 {addr : Ipv4Addr} {parts : UInt8}
    (hbefore : tokAt tokens (i - 2) ≠ some .slash) :
    Yields tokens (parseNet4 addr parts dir) i fun x j => Faithful tokens j x := by
  refine Yields.bind (Yields.eat (fun _ => Yields.err) fun _ => ?_)
  refine Yields.bind (Yields.eat (fun hs => ?_) fun _ => ?_)
  · refine Yields.bind ((yields_parsePrefixLen (by decide)).mono ?_)
    rintro n j ⟨rfl, hn, hle⟩
    exact Yields.ite (fun _ => Yields.err) fun _ =>
      Yields.pure fun _ => ⟨n, hn, UInt8.le_iff_toNat_le.mpr hle, rfl⟩
  refine Yields.bind (Yields.eat (fun hmask => ?_) fun _ => ?_)
  · refine Yields.bind (Yields.advance (fun _ => Yields.err) fun t ht => ?_)
    split
    · refine Yields.ite (fun _ => Yields.err) fun _ => Yields.pure (faithful_net ?_)
      change tokAt tokens i ≠ _
      rw [hmask]
      simp
    · exact Yields.err
  · refine Yields.bind (yields_octetMask.mono ?_)
    rintro mask j rfl
    exact Yields.pure (faithful_net hbefore)

theorem yields_shiftNet {fuel : Nat} {addr mask : UInt32} :
    Yields tokens (shiftNet fuel addr mask) i fun _ j => j = i := by
  induction fuel generalizing addr mask with
  | zero =>
    unfold shiftNet
    exact Yields.ite (fun _ => Yields.throw) fun _ => Yields.pure rfl
  | succ fuel ih =>
    unfold shiftNet
    exact Yields.ite (fun _ => ih) fun _ => Yields.pure rfl

theorem yields_parseNet (hbefore : tokAt tokens (i - 1) ≠ some .slash) :
    Yields tokens (parseNet dir) i fun x j => Faithful tokens j x := by
  refine Yields.looks (Yields.bind (Yields.advance (fun _ => Yields.err) fun t ht => ?_))
  split
  · exact yields_parseNet4 hbefore
  · refine Yields.ite (fun _ => Yields.bind (yields_shiftNet.mono ?_)) fun _ => Yields.err
    rintro ⟨addr, mask⟩ j rfl
    exact Yields.pure (faithful_net hbefore)
  · rename_i addr haddr
    cases haddr
    exact yields_parseNet6 ht
  · exact Yields.err

theorem yields_parseIp : Yields tokens parseIp i fun _ _ => True := by
  refine Yields.looks (Yields.bind (Yields.advance (fun _ => Yields.err) fun t _ => ?_))
  split
  · exact Yields.pure trivial
  · exact Yields.pure trivial
  · exact Yields.ite (fun _ => Yields.pure trivial) fun _ => Yields.err
  · exact Yields.err

theorem yields_parseHostAddr :
    Yields tokens (parseHostAddr dir) i fun x j => Faithful tokens j x := by
  refine Yields.bind (yields_parseIp.mono fun addr j _ => ?_)
  split
  · exact Yields.pure trivial
  · refine Yields.bind (Yields.eat (fun _ => ?_) fun _ => Yields.pure trivial)
    refine Yields.bind ((yields_parsePrefixLen (by decide)).mono fun _ _ _ => ?_)
    exact Yields.ite (fun _ => Yields.err) fun _ => Yields.pure trivial

theorem yields_parseHost (hbefore : tokAt tokens (i - 1) ≠ some .slash) :
    Yields tokens (parseHost dir) i fun x j => Faithful tokens j x := by
  refine Yields.looks ?_
  split
  · rename_i ht
    refine Yields.ite (fun _ => Yields.skip ht (Yields.bind (yields_octetMask.mono ?_)))
      fun _ => yields_parseHostAddr
    rintro mask j rfl
    exact Yields.pure (faithful_net hbefore)
  · exact yields_parseHostAddr

/-! ### Byte access -/

theorem yields_parseBrackets :
    Yields tokens parseBrackets i fun _ j => tokAt tokens (j - 1) = some .rBracket := by
  refine Yields.bind (Yields.expect fun ht => ?_)
  refine Yields.bind ((Yields.forward safe_parseOffsetExpr (tokAt_lt ht)).mono ?_)
  rintro offset k ⟨-, hk⟩
  refine Yields.ite (fun _ => Yields.err) fun _ => ?_
  refine Yields.bind ((Yields.forward safe_parseSize hk).mono fun _ _ _ => ?_)
  exact Yields.bind (Yields.expect fun hr => Yields.pure hr)

theorem yields_parseByteLoad {layer : Layer} :
    Yields tokens (parseByteLoad layer) i fun _ j => tokAt tokens (j - 1) = some .rBracket :=
  Yields.bind (yields_parseBrackets.mono fun _ _ h => Yields.pure h)

theorem yields_parseAluOps {k : Nat} (fuel : Nat) (ops : List (ArithOp × UInt32)) :
    i = k + 2 * ops.length → Operators tokens k ops →
      Yields tokens (parseAluOps fuel ops) i fun ops' j =>
        j = k + 2 * ops'.length ∧ Operators tokens k ops' := by
  induction fuel generalizing i ops with
  | zero =>
    intro hi hops
    unfold parseAluOps
    refine Yields.looks ?_
    split
    · exact Yields.pure ⟨hi, hops⟩
    · exact Yields.throw
  | succ fuel ih =>
    intro hi hops
    unfold parseAluOps
    refine Yields.looks ?_
    split
    · exact Yields.pure ⟨hi, hops⟩
    · rename_i op hop
      obtain ⟨t, ht, -⟩ := Option.bind_eq_some_iff.mp hop
      refine Yields.skip ht (Yields.bind (Yields.parseU32 fun n hn hle => ?_))
      refine ih _ (by simp; omega) fun m hm => ?_
      rw [List.length_append, List.length_singleton] at hm
      rcases Nat.lt_or_ge m ops.length with hlt | hge
      · rw [List.getElem_append_left hlt]
        exact hops m hlt
      · obtain rfl : m = ops.length := by omega
        rw [List.getElem_append_right hge]
        simp only [Nat.sub_self, List.getElem_cons_zero]
        rw [← hi]
        exact ⟨hop, n, hn, toUInt32_exact hle⟩

theorem yields_parseCmpop :
    Yields tokens parseCmpop i fun _ j => j = i + 1 ∧ tokAt tokens i ≠ some .proto := by
  refine Yields.looks (Yields.bind (Yields.advance (fun _ => Yields.err) fun t ht => ?_))
  rw [ht]
  split <;> first
    | exact Yields.pure ⟨rfl, by rename_i h; rw [h]; simp⟩
    | exact Yields.err

theorem yields_parseCmpRhs : Yields tokens parseCmpRhs i fun rhs j =>
    (∃ l, rhs = .load l ∧ tokAt tokens (j - 1) = some .rBracket) ∨
      ∃ c, rhs = .const c ∧ j = i + 1 ∧ Literal tokens i c.toNat := by
  refine Yields.looks (Yields.bind (Yields.peekTok ?_))
  split
  · rename_i hlayer _
    obtain ⟨t, ht, -⟩ := Option.bind_eq_some_iff.mp hlayer
    exact Yields.skip ht (Yields.bind (yields_parseByteLoad.mono fun l j h =>
      Yields.pure (Or.inl ⟨l, rfl, h⟩)))
  · exact Yields.bind (Yields.parseU32 fun n hn hle =>
      Yields.pure (Or.inr ⟨_, rfl, rfl, n, hn, toUInt32_exact hle⟩))

theorem yields_parseByteAccess {layer : Layer} : Yields tokens (parseByteAccess layer) i fun x j =>
    Faithful tokens j x ∧ ∀ n, tokAt tokens (j - 1) = some (.num n) →
      tokAt tokens (j - 2) ≠ some .proto := by
  refine Yields.bind (yields_parseBrackets.mono fun ⟨offset, size⟩ k _ => Yields.get ?_)
  refine Yields.bind ((yields_parseAluOps _ [] rfl fun n hn => absurd hn (Nat.not_lt_zero n)).mono
    fun ops j ⟨hj, hops⟩ => ?_)
  refine Yields.bind (yields_parseCmpop.mono fun op m ⟨hm, hcmp⟩ => ?_)
  refine Yields.bind (yields_parseCmpRhs.mono fun rhs n hrhs => Yields.pure ?_)
  subst hm
  rcases hrhs with ⟨l, rfl, hbracket⟩ | ⟨c, rfl, rfl, hc⟩
  · refine ⟨⟨k, hops, fun c h => nomatch h⟩, fun v hv => ?_⟩
    rw [hbracket] at hv
    cases hv
  · refine ⟨⟨k, hops, fun c' h => ?_⟩, fun v hv => hcmp⟩
    cases h
    exact ⟨by simp only; omega, hc⟩

/-! ### Primitives -/

/-- A number at the end of an `ether` primitive that does not fit is one behind `proto`. -/
theorem yields_parseEtherArg :
    Yields tokens parseEtherArg i fun x j =>
      (Faithful tokens j x ↔ ∀ n, tokAt tokens (j - 1) = some (.num n) →
        tokAt tokens (j - 2) = some .proto → n.toNat ≤ 0xffff) := by
  have hword : ∀ {j t x}, tokAt tokens (j - 1) = some t → (∀ n, t ≠ .num n) →
      Faithful tokens j x → (Faithful tokens j x ↔ ∀ n, tokAt tokens (j - 1) = some (.num n) →
        tokAt tokens (j - 2) = some .proto → n.toNat ≤ 0xffff) := by
    intro j t x ht hn hf
    refine iff_of_true hf fun n h => ?_
    rw [ht] at h
    exact absurd (Option.some.inj h) (hn n)
  refine Yields.looks (Yields.ite (fun _ => ?_) fun _ => ?_)
  · refine yields_parseByteAccess.mono fun x j ⟨hf, hp⟩ => iff_of_true hf fun n hn h => ?_
    exact absurd h (hp n hn)
  refine Yields.bind ?_
  intro dir q hq
  obtain ⟨dir', m, hm⟩ := parseDir_ok tokens i
  rw [hm] at hq
  cases hq
  refine ⟨m, rfl, Yields.looks ?_⟩
  have hmac : ∀ {k}, Yields tokens (do return Primitive.etherHost (← parseMacAddr) dir :
      Parse Primitive) k fun x j =>
      (Faithful tokens j x ↔ ∀ n, tokAt tokens (j - 1) = some (.num n) →
        tokAt tokens (j - 2) = some .proto → n.toNat ≤ 0xffff) := by
    intro k
    refine Yields.bind (Yields.looks (Yields.bind (Yields.advance (fun _ => Yields.err)
      fun t ht => ?_)))
    split
    · rename_i mac hmac
      cases hmac
      exact Yields.pure (Yields.pure (hword ht nofun trivial))
    · exact Yields.err
  cases ht : tokAt tokens m with
  | none => exact Yields.err
  | some t =>
    cases t with
    | host => exact Yields.skip ht hmac
    | mac => exact hmac
    | broadcast | multicast => exact Yields.skip ht (Yields.pure (hword ht nofun trivial))
    | ip | ip6 | arp | rarp =>
      refine Yields.skip ht (Yields.pure (hword ht nofun (Or.inr ?_)))
      change (tokAt tokens m).bind etherKeyword = _
      rw [ht]
      rfl
    | proto =>
      refine Yields.skip ht (Yields.looks ?_)
      split
      · rename_i et het
        obtain ⟨u, hu, hk⟩ := Option.bind_eq_some_iff.mp het
        exact Yields.skip hu (Yields.pure (hword hu (by rintro n rfl; cases hk) (Or.inr het)))
      · refine Yields.bind (Yields.parseU32 fun n hn hle => Yields.pure ?_)
        constructor
        · rintro (⟨n', hn', he⟩ | hk) v hv -
          · rw [show m + 1 + 1 - 1 = m + 1 by omega] at hn' hv
            rw [hn'] at hv
            cases hv
            rw [he]
            exact Nat.le_of_lt_succ (UInt16.toNat_lt _)
          · rw [show m + 1 + 1 - 1 = m + 1 by omega] at hv
            unfold Keyword at hk
            rw [show m + 1 + 1 - 1 = m + 1 by omega, hv] at hk
            cases hk
        · exact fun h => Or.inl ⟨n, hn, toUInt16_toUInt32_exact (h n hn ht)⟩
    | _ => exact Yields.err

theorem yields_byteAccessOr {layer : Layer} {otherwise : Parse Primitive}
    (h : Yields tokens otherwise i fun x j => Faithful tokens j x) :
    Yields tokens (byteAccessOr layer otherwise) i fun x j => Faithful tokens j x :=
  Yields.looks (Yields.ite (fun _ => yields_parseByteAccess.mono fun _ _ h => h.1) fun _ => h)

theorem yields_parseIpPrim : Yields tokens parseIpPrim i fun x j => Faithful tokens j x := by
  refine yields_byteAccessOr (Yields.bind (Yields.eat (fun _ => ?_) fun _ => ?_))
  · exact Yields.bind (yields_parseProtoNum.mono fun _ _ h => Yields.pure h)
  refine Yields.bind (Yields.eat (fun _ => ?_) fun _ => ?_)
  · exact Yields.bind (yields_parseProtoNum.mono fun _ _ h => Yields.pure h)
  refine Yields.bind (Yields.eat (fun _ => Yields.pure trivial) fun _ => ?_)
  exact Yields.bind (Yields.eat (fun _ => Yields.pure trivial) fun _ => Yields.pure trivial)

theorem yields_parseIp6Prim : Yields tokens parseIp6Prim i fun x j => Faithful tokens j x := by
  refine yields_byteAccessOr (Yields.bind (Yields.eat (fun _ => ?_) fun _ => ?_))
  · exact Yields.bind (yields_parseProtoNum.mono fun _ _ h => Yields.pure h)
  refine Yields.bind (Yields.eat (fun _ => ?_) fun _ => ?_)
  · exact Yields.bind (yields_parseProtoNum.mono fun _ _ h => Yields.pure h)
  exact Yields.bind (Yields.eat (fun _ => Yields.pure trivial) fun _ => Yields.pure trivial)

theorem yields_parseAfterDir (hbefore : tokAt tokens (i - 1) ≠ some .slash) :
    Yields tokens (parseAfterDir dir) i fun x j => Faithful tokens j x := by
  have hproto : ∀ {t : Token} {proto : Proto} {name : String}, tokAt tokens i = some t →
      Yields tokens (parseDirProto dir proto name) i fun x j => Faithful tokens j x :=
    fun ht => Yields.skip ht (yields_portOr (Yields.looks Yields.err))
  refine Yields.looks ?_
  cases ht : tokAt tokens i with
  | none => exact Yields.err
  | some t =>
    have hword : ∀ u, t = u → u ≠ .slash → tokAt tokens (i + 1 - 1) ≠ some .slash := by
      rintro u rfl hu h
      rw [Nat.add_sub_cancel, ht] at h
      exact hu (Option.some.inj h)
    cases t with
    | host => exact Yields.skip ht (yields_parseHost (hword _ rfl nofun))
    | net => exact Yields.skip ht (yields_parseNet (hword _ rfl nofun))
    | port => exact Yields.skip ht yields_parsePort
    | portRange => exact Yields.skip ht yields_parsePortrange
    | tcp | udp | sctp => exact hproto ht
    | ipv4 _ _ | ipv6 _ | num _ => exact yields_parseHost hbefore
    | _ => exact Yields.err

/-- No `/` stands where a direction qualifier ends. -/
theorem srcDir_last (h : tokAt tokens i = some .src) :
    tokAt tokens ((srcDir tokens i).2 - 1) ≠ some .slash := by
  unfold srcDir
  split
  · rename_i hand
    split
    · rename_i hd
      simp [hd]
    · split
      · rename_i hor
        split
        · rename_i hd
          simp [hd]
        · simp [hor]
      · simp [hand]
  · split
    · rename_i hor
      split
      · rename_i hd
        simp [hd]
      · simp [hor]
    · simp [h]

theorem yields_dirPrimitive (h : tokAt tokens i = some .src ∨ tokAt tokens i = some .dst) :
    Yields tokens (do parseAfterDir (← parseDir)) i fun x j => Faithful tokens j x := by
  refine Yields.bind ?_
  intro dir q hq
  rcases h with hsrc | hdst
  · rw [parseDir_src hsrc] at hq
    cases hq
    exact ⟨_, rfl, yields_parseAfterDir (srcDir_last hsrc)⟩
  · rw [parseDir_dst hdst] at hq
    cases hq
    refine ⟨_, rfl, yields_parseAfterDir ?_⟩
    rw [Nat.add_sub_cancel, hdst]
    simp

/-- `vlan` and `mpls` with a number, or without one. -/
theorem yields_optNum {Q : Option UInt64 → Nat → Prop} (hnone : Q none i)
    (hsome : ∀ n, tokAt tokens i = some (.num n) → Q (some n) (i + 1)) :
    Yields tokens optNum i Q := by
  refine Yields.looks ?_
  split
  · exact Yields.skip ‹_› (Yields.pure (hsome _ ‹_›))
  · exact Yields.pure hnone

theorem literal_iff {n : UInt64} {v w : Nat} (ht : tokAt tokens i = some (.num n))
    (h : n.toNat = v ↔ n.toNat ≤ w) : Literal tokens i v ↔ n.toNat ≤ w := by
  rw [← h]
  refine ⟨fun ⟨m, hm, hv⟩ => ?_, fun hv => ⟨n, ht, hv⟩⟩
  rw [ht] at hm
  cases hm
  exact hv

/-- The numbers of a primitive are its literals exactly if those fit. -/
theorem yields_parsePrimitive (hshort : Short tokens) : Yields tokens parsePrimitive i fun x j =>
    (Faithful tokens j x ↔ Fits tokens i j) := by
  refine Yields.looks ?_
  cases ht : tokAt tokens i with
  | none => exact Yields.err
  | some t =>
    -- Only `proto`, `vlan` and `ether` leave a number unchecked.
    have hrest : ∀ {x j}, t ≠ .proto → t ≠ .vlan → t ≠ .ether → Faithful tokens j x →
        (Faithful tokens j x ↔ Fits tokens i j) := by
      intro x j hp hv he hf
      refine iff_of_true hf fun n _ => ?_
      rw [ht]
      simp [hp, hv, he]
    have hword : ∀ u, t = u → u ≠ .slash → tokAt tokens (i + 1 - 1) ≠ some .slash := by
      rintro u rfl hu h
      rw [Nat.add_sub_cancel, ht] at h
      exact hu (Option.some.inj h)
    cases t with
    | less | greater =>
      exact Yields.skip ht (yields_parseLen.mono fun _ _ => hrest nofun nofun nofun)
    | len =>
      exact Yields.skip ht (Yields.bind (yields_parseCmpop.mono fun _ _ _ =>
        yields_parseLen.mono fun _ _ => hrest nofun nofun nofun))
    | ip => exact Yields.skip ht (yields_parseIpPrim.mono fun _ _ => hrest nofun nofun nofun)
    | ip6 => exact Yields.skip ht (yields_parseIp6Prim.mono fun _ _ => hrest nofun nofun nofun)
    | icmp | icmp6 =>
      exact Yields.skip ht ((yields_byteAccessOr (Yields.pure (by trivial))).mono fun _ _ =>
        hrest nofun nofun nofun)
    | sctp =>
      exact Yields.skip ht ((yields_portOr (Yields.pure (by trivial))).mono fun _ _ =>
        hrest nofun nofun nofun)
    | tcp | udp =>
      exact Yields.skip ht ((yields_byteAccessOr (yields_portOr (Yields.pure (by trivial)))).mono
        fun _ _ => hrest nofun nofun nofun)
    | proto =>
      refine Yields.skip ht (Yields.bind (Yields.parseU32 fun n hn hle => Yields.pure ?_))
      have hkey : ¬ Keyword protoNum tokens (i + 1 + 1 - 1) n.toUInt32.toUInt8 := by
        unfold Keyword
        rw [Nat.add_sub_cancel, hn]
        nofun
      refine (or_iff_left hkey).trans ((literal_iff hn ⟨fun h => ?_, toUInt8_toUInt32_exact⟩).trans
        ⟨fun h m hm => ?_, fun h => (h n hn).1 ht⟩)
      · rw [h]
        exact Nat.le_of_lt_succ (UInt8.toNat_lt _)
      · rw [Nat.add_sub_cancel, hn] at hm
        cases hm
        rw [ht]
        exact ⟨fun _ => h, nofun, nofun⟩
    | vlan =>
      refine Yields.skip ht (Yields.bind (yields_optNum (Yields.pure ?_) fun n hn =>
        Yields.pure ?_))
      · refine iff_of_true trivial fun n hn => ?_
        rw [Nat.add_sub_cancel, ht] at hn
        cases hn
      · refine (literal_iff hn ⟨fun h => ?_, toUInt16_exact⟩).trans
          ⟨fun h m hm => ?_, fun h => (h n hn).2.1 ht⟩
        · rw [h]
          exact Nat.le_of_lt_succ (UInt16.toNat_lt _)
        · rw [Nat.add_sub_cancel, hn] at hm
          cases hm
          rw [ht]
          exact ⟨nofun, fun _ => h, nofun⟩
    | mpls =>
      refine Yields.skip ht (Yields.bind (yields_optNum (Yields.pure ?_) fun n hn =>
        Yields.pure ?_))
      · exact hrest nofun nofun nofun trivial
      · exact hrest nofun nofun nofun ⟨n, hn, toUInt32_exact (hshort _ _ hn)⟩
    | pppoes =>
      exact Yields.skip ht (yields_parsePppoes.mono fun _ _ => hrest nofun nofun nofun)
    | gateway =>
      exact Yields.skip ht (Yields.bind (Yields.advance (fun _ => Yields.err) fun _ _ => Yields.err))
    | ether =>
      refine Yields.skip ht (yields_parseEtherArg.mono fun x j h => h.trans ?_)
      refine ⟨fun h n hn => ⟨?_, ?_, fun _ => h n hn⟩, fun h n hn => (h n hn).2.2 ht⟩
      · rw [ht]
        simp
      · rw [ht]
        simp
    | src | dst =>
      exact (yields_dirPrimitive (by simp [ht])).mono fun _ _ => hrest nofun nofun nofun
    | host =>
      exact Yields.skip ht ((yields_parseHost (hword _ rfl nofun)).mono fun _ _ =>
        hrest nofun nofun nofun)
    | net =>
      exact Yields.skip ht ((yields_parseNet (hword _ rfl nofun)).mono fun _ _ =>
        hrest nofun nofun nofun)
    | port => exact Yields.skip ht (yields_parsePort.mono fun _ _ => hrest nofun nofun nofun)
    | portRange =>
      exact Yields.skip ht (yields_parsePortrange.mono fun _ _ => hrest nofun nofun nofun)
    | ipv4 octets parts =>
      refine Yields.ite (fun _ => Yields.err) fun hparts => ?_
      refine Yields.looks ?_
      rw [ht]
      refine Yields.ite (fun h => absurd (UInt8.lt_of_le_of_lt h.2 (by decide)) hparts) fun _ => ?_
      exact yields_parseHostAddr.mono fun _ _ => hrest nofun nofun nofun
    | ipv6 addr =>
      refine Yields.looks ?_
      rw [ht]
      exact yields_parseHostAddr.mono fun _ _ => hrest nofun nofun nofun
    | lBracket =>
      exact yields_parseByteAccess.mono fun _ _ h => hrest nofun nofun nofun h.1
    | broadcast | multicast | arp | rarp | igmp | pppoed | inbound | outbound =>
      exact Yields.skip ht (Yields.pure (hrest nofun nofun nofun trivial))
    | ah | esp | pim | igrp | vrrp =>
      refine Yields.skip ht (Yields.pure (hrest nofun nofun nofun (Or.inr ?_)))
      change (tokAt tokens i).bind protoNum = _
      rw [ht]
      rfl
    | _ => exact Yields.err

end

/-- Every number in the tree of a filter is the literal it was written as exactly if each number
behind a bare `proto`, behind `vlan` and behind `ether proto` fits its field. -/
theorem numbers_faithful (src : String) (tokens : List Spanned) (h : lex src = .ok tokens) (e : Expr) :
    EveryPrimitive tokens (fun _ j x => Faithful tokens j x) e ↔
      EveryPrimitive tokens (fun i j _ => Fits tokens i j) e := by
  refine everyPrimitive_congr fun i j x hx => ?_
  obtain ⟨k, hk, hiff⟩ := yields_parsePrimitive (short_of_lexed (Lexer.lex_lexed h)) x _ hx
  cases hk
  exact hiff

/-- The tokens of `vlan 5`. -/
def vlanFive : List Spanned := [⟨.vlan, 0⟩, ⟨.num 5, 5⟩]

theorem numbers_faithful_vlan : EveryPrimitive vlanFive (fun _ j x => Faithful vlanFive j x)
    (.primitive (.vlan (some 5))) := by
  refine (numbers_faithful "vlan 5" vlanFive rfl _).mpr ?_
  refine .single (.atom (.primitive (suchThat_ok.mpr ⟨rfl, fun n hn => ?_⟩)))
  cases hn
  exact ⟨nofun, fun _ => by decide, nofun⟩

/-- `proto 262` is read as protocol 6. -/
theorem proto_truncated :
    lex "proto 262" = .ok [⟨.proto, 0⟩, ⟨.num 262, 6⟩] ∧
      parse [⟨.proto, 0⟩, ⟨.num 262, 6⟩] = .ok (.primitive (.proto (.num 6))) ∧
      ¬ Faithful [⟨.proto, 0⟩, ⟨.num 262, 6⟩] 2 (.proto (.num 6)) := by
  refine ⟨rfl, by decide +kernel, ?_⟩
  rintro (⟨n, hn, hv⟩ | h)
  · cases hn
    exact absurd hv (by decide)
  · cases h

end PktBaffle.Proofs.Parser
