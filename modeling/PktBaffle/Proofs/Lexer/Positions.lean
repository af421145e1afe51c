import PktBaffle.Utf8
import PktBaffle.Proofs.Lexer.Runs

namespace PktBaffle.Proofs.Lexer
open PktBaffle.Lexer Utf8

/-! ### The first character -/

theorem toNat_ofNat_lt {n : Nat} (h : n < 256) : (UInt8.ofNat n).toNat = n := by
  rw [UInt8.toNat_ofNat', Nat.mod_eq_of_lt h]

/-- A byte with `k` as its leading bits is below the bound they set. -/
theorem lead_lt {n k m : Nat} {a : UInt8} (hm : 0 < m) (hk : k + m ≤ 256) (ha : a.toNat = k + m) :
    UInt8.ofNat (n % m + k) < a := by
  have := Nat.mod_lt n hm
  rw [ofNat_lt_iff (by omega)]
  omega

theorem lead_not_lt {n k m : Nat} {a : UInt8} (hm : 0 < m) (hk : k + m ≤ 256) (ha : a.toNat ≤ k) :
    ¬ UInt8.ofNat (n % m + k) < a := by
  have := Nat.mod_lt n hm
  rw [ofNat_lt_iff (by omega)]
  omega

theorem lead_toNat {n k m : Nat} (hm : 0 < m) (hk : k + m ≤ 256) :
    (UInt8.ofNat (n % m + k)).toNat = n % m + k := by
  have := Nat.mod_lt n hm
  exact toNat_ofNat_lt (by omega)

theorem firstChar_encode (c : Char) (rest : List UInt8) :
    firstChar (String.utf8EncodeChar c ++ rest) = some c := by
  have hmax : c.toNat < 0x110000 := by
    rcases c.valid with h | h
    · exact Nat.lt_trans h (by decide)
    · exact h.2
  have hofNat : ∀ n, n = c.toNat → some (Char.ofNat n) = some c := by
    rintro n rfl
    rw [Char.ofNat_toNat]
  unfold String.utf8EncodeChar
  change firstChar ((if c.toNat ≤ 0x7f then [UInt8.ofNat c.toNat] else
    if c.toNat ≤ 0x7ff then [UInt8.ofNat (c.toNat / 64 % 0x20 + 0xc0),
      UInt8.ofNat (c.toNat % 0x40 + 0x80)] else
    if c.toNat ≤ 0xffff then [UInt8.ofNat (c.toNat / 4096 % 0x10 + 0xe0),
      UInt8.ofNat (c.toNat / 64 % 0x40 + 0x80), UInt8.ofNat (c.toNat % 0x40 + 0x80)] else
    [UInt8.ofNat (c.toNat / 262144 % 0x08 + 0xf0), UInt8.ofNat (c.toNat / 4096 % 0x40 + 0x80),
      UInt8.ofNat (c.toNat / 64 % 0x40 + 0x80), UInt8.ofNat (c.toNat % 0x40 + 0x80)]) ++ rest) =
    some c
  have hlow : ∀ n, (UInt8.ofNat (n % 0x40 + 0x80)).toNat = n % 0x40 + 0x80 :=
    fun n => lead_toNat (by decide) (by decide)
  by_cases h₁ : c.toNat ≤ 0x7f
  · have hlt : UInt8.ofNat c.toNat < 0x80 :=
      (ofNat_lt_iff (by omega)).mpr (Nat.lt_succ_of_le h₁)
    rw [if_pos h₁]
    simp only [List.cons_append, firstChar, hlt, if_true]
    exact hofNat _ (toNat_ofNat_lt (by omega))
  rw [if_neg h₁]
  by_cases h₂ : c.toNat ≤ 0x7ff
  · have hge : ¬ UInt8.ofNat (c.toNat / 64 % 0x20 + 0xc0) < 0x80 :=
      lead_not_lt (by decide) (by decide) (by decide)
    have hlt : UInt8.ofNat (c.toNat / 64 % 0x20 + 0xc0) < 0xe0 :=
      lead_lt (by decide) (by decide) (by decide)
    have hlead : (UInt8.ofNat (c.toNat / 64 % 0x20 + 0xc0)).toNat = c.toNat / 64 % 0x20 + 0xc0 :=
      lead_toNat (by decide) (by decide)
    rw [if_pos h₂]
    simp only [List.cons_append, List.nil_append, firstChar, hge, hlt, if_true, if_false,
      List.getD_cons_zero, hlead, hlow]
    apply hofNat
    omega
  rw [if_neg h₂]
  by_cases h₃ : c.toNat ≤ 0xffff
  · have hge : ∀ a : UInt8, a.toNat ≤ 0xe0 → ¬ UInt8.ofNat (c.toNat / 4096 % 0x10 + 0xe0) < a :=
      fun a ha => lead_not_lt (by decide) (by decide) ha
    have hlt : UInt8.ofNat (c.toNat / 4096 % 0x10 + 0xe0) < 0xf0 :=
      lead_lt (by decide) (by decide) (by decide)
    have hlead : (UInt8.ofNat (c.toNat / 4096 % 0x10 + 0xe0)).toNat =
        c.toNat / 4096 % 0x10 + 0xe0 := lead_toNat (by decide) (by decide)
    rw [if_pos h₃]
    simp only [List.cons_append, List.nil_append, firstChar, hge 0x80 (by decide),
      hge 0xe0 (by decide), hlt, if_true, if_false, List.getD_cons_zero, List.getD_cons_succ,
      hlead, hlow]
    apply hofNat
    omega
  · have hge : ∀ a : UInt8, a.toNat ≤ 0xf0 → ¬ UInt8.ofNat (c.toNat / 262144 % 8 + 0xf0) < a :=
      fun a ha => lead_not_lt (by decide) (by decide) ha
    have hlead : (UInt8.ofNat (c.toNat / 262144 % 8 + 0xf0)).toNat =
        c.toNat / 262144 % 8 + 0xf0 := lead_toNat (by decide) (by decide)
    rw [if_neg h₃]
    simp only [List.cons_append, List.nil_append, firstChar, hge 0x80 (by decide),
      hge 0xe0 (by decide), hge 0xf0 (by decide), if_false, List.getD_cons_zero,
      List.getD_cons_succ, hlead, hlow]
    apply hofNat
    omega

/-! ### The scanners stop between characters -/

theorem ascii_of_all {p : UInt8 → Bool}
    (h : ∀ hi < 16, ∀ lo < 16, p (UInt8.ofNat (16 * hi + lo)) → UInt8.ofNat (16 * hi + lo) < 0x80)
    (b : UInt8) (hb : p b = true) : b < 0x80 :=
  forall_byte (P := fun b => p b = true → b < 0x80) h b hb

theorem addrByte_ascii : ∀ b, addrByte b = true → b < 0x80 :=
  ascii_of_all (by decide)

theorem hexDigit_ascii : ∀ b, isHexDigit b = true → b < 0x80 :=
  ascii_of_all (by decide)

theorem numByte_ascii : ∀ b, numByte b = true → b < 0x80 :=
  ascii_of_all (by decide)

theorem isAlnum_ascii : ∀ b, isAlnum b = true → b < 0x80 :=
  ascii_of_all (by decide)

section Scanners

variable {cs : List Char} {start pos : Nat} {b : UInt8}

theorem boundary_next (h : Boundary cs pos) (hb : (encode cs)[pos]? = some b) (hascii : b < 0x80) :
    Boundary cs (pos + 1) := by
  obtain ⟨c, -, -, hnext⟩ := h.ascii hb hascii
  exact hnext

theorem boundary_scan {p : UInt8 → Bool} (hp : ∀ b, p b = true → b < 0x80)
    (h : Boundary cs pos) : Boundary cs (scan p (encode cs) pos) := by
  apply h.run
  intro i hi
  have hmem := List.getElem_mem hi
  obtain ⟨rest, hrest⟩ : ((encode cs).drop pos).takeWhile p <+: (encode cs).drop pos :=
    List.takeWhile_prefix p
  have hget : ((encode cs).drop pos)[i]? = (((encode cs).drop pos).takeWhile p)[i]? := by
    conv_lhs => rw [← hrest]
    exact List.getElem?_append_left hi
  refine ⟨_, ?_, hp _ (List.mem_takeWhile_imp hmem)⟩
  rw [← List.getElem?_drop, hget]
  exact List.getElem?_eq_getElem hi

theorem isCharBoundary_of (h : Boundary cs pos) : isCharBoundary (encode cs) pos = true := by
  unfold isCharBoundary
  rcases Nat.lt_or_ge pos (encode cs).length with hlt | hge
  · have hb : (encode cs)[pos]? = some (encode cs)[pos] := List.getElem?_eq_getElem hlt
    have hstarts := h.starts hb
    rw [hb]
    simp [hstarts]
  · have heq : pos = (encode cs).length := Nat.le_antisymm h.le hge
    simp [heq]

theorem slice_boundary {stop : Nat} (h : Boundary cs start) (hstop : Boundary cs stop)
    (hle : start ≤ stop) : ∃ s, slice (encode cs) start stop = .ok s :=
  ⟨_, if_pos ⟨hle, hstop.le, isCharBoundary_of h, isCharBoundary_of hstop⟩⟩

/-- The turn pushes a token at `start` and goes on between characters. -/
def TokenTurn (cs : List Char) (start : Nat) (turn : Turn) : Prop :=
  (∃ t, turn.1 = some t ∧ t.offset = start) ∧ Boundary cs turn.2

theorem lexIpv6_at (accepts : List UInt8 → Bool) (hs : Boundary cs start) (h : Boundary cs pos)
    (hle : start ≤ pos) : ∃ r, lexIpv6 accepts (encode cs) start pos = .ok r ∧
      ∀ turn ∈ r, TokenTurn cs start turn := by
  have hscan := boundary_scan addrByte_ascii h
  obtain ⟨s, hslice⟩ := slice_boundary hs hscan (hle.trans (le_scan _ _ _))
  rw [lexIpv6_eq, hslice]
  refine ⟨_, rfl, ?_⟩
  intro turn hturn
  obtain ⟨addr, -, rfl⟩ := Option.map_eq_some_iff.mp hturn
  exact ⟨⟨_, rfl, rfl⟩, hscan⟩

theorem macGroups_boundary {n tmp : Nat} (h : Boundary cs pos)
    (hm : macGroups (encode cs) n pos = some tmp) : Boundary cs tmp := by
  induction n generalizing pos with
  | zero =>
    cases hm
    exact h
  | succ n ih =>
    unfold macGroups at hm
    simp only at hm
    split at hm
    · rename_i hcolon
      split at hm
      · cases hm
      · exact ih (boundary_scan hexDigit_ascii (boundary_next h hcolon (by decide))) hm
    · cases hm

theorem lexMac_at (hs : Boundary cs start) (h : Boundary cs pos) (hle : start ≤ pos) :
    ∃ r, lexMac (encode cs) start pos = .ok r ∧ ∀ turn ∈ r, TokenTurn cs start turn := by
  unfold lexMac
  cases hm : macGroups (encode cs) 5 pos with
  | none => exact ⟨none, rfl, fun _ ht => by cases ht⟩
  | some tmp =>
    have htmp := macGroups_boundary h hm
    simp only
    split
    · exact ⟨none, rfl, fun _ ht => by cases ht⟩
    · obtain ⟨s, hslice⟩ := slice_boundary hs htmp (hle.trans (le_macGroups hm))
      rw [hslice]
      refine ⟨_, rfl, ?_⟩
      intro turn hturn
      obtain ⟨mac, -, rfl⟩ := Option.map_eq_some_iff.mp hturn
      exact ⟨⟨_, rfl, rfl⟩, htmp⟩

theorem extend_at (hs : Boundary cs start) (h : Boundary cs pos) (hle : start ≤ pos) :
    ∃ r, extend (encode cs) start pos = .ok r ∧ ∀ turn ∈ r, TokenTurn cs start turn := by
  unfold extend
  split
  · obtain ⟨mac, hmac, hturn⟩ := lexMac_at hs h hle
    rw [hmac]
    cases mac with
    | some turn => exact ⟨some turn, rfl, hturn⟩
    | none => exact lexIpv6_at looksLikeIpv6 hs h hle
  · exact ⟨none, rfl, fun _ ht => by cases ht⟩

/-- A token, or a refusal that names its text. -/
def TokenOr (cs : List Char) (start : Nat) (r : Except Error Turn) : Prop :=
  (∃ turn, r = .ok turn ∧ TokenTurn cs start turn) ∨ ∃ message, r = .error (.parseError message)

theorem lexColon_at (h : Boundary cs pos) (hb : (encode cs)[pos]? = some (ascii ':')) :
    TokenOr cs pos (lexColon (encode cs) pos) := by
  have hnext := boundary_next h hb (by decide)
  rw [lexColon_eq]
  split
  · obtain ⟨r, hr, hturn⟩ := lexIpv6_at (fun _ => true) h h (Nat.le_refl _)
    rw [hr]
    cases r with
    | none => exact .inl ⟨_, rfl, ⟨_, rfl, rfl⟩, hnext⟩
    | some turn => exact .inl ⟨turn, rfl, hturn turn rfl⟩
  · exact .inl ⟨_, rfl, ⟨_, rfl, rfl⟩, hnext⟩

theorem parseDigits_error {invalid : String → Error} {radix n : Nat} {digits : List UInt8}
    {e : Error} (h : parseDigits invalid radix digits n = .error e) : ∃ why, e = invalid why := by
  induction digits generalizing n with
  | nil => cases h
  | cons c rest ih =>
    unfold parseDigits at h
    split at h
    · cases h
      exact ⟨_, rfl⟩
    · split at h
      · cases h
        exact ⟨_, rfl⟩
      · exact ih h

theorem parseInt_error {raw : List UInt8} {offset : Nat} {e : Error}
    (h : parseInt raw offset = .error e) : ∃ why, e = invalidNumber raw offset why := by
  unfold parseInt at h
  simp only at h
  split at h
  · cases h
    exact ⟨_, rfl⟩
  · cases hd : parseDigits (invalidNumber raw offset) (radixOf raw).2 (radixOf raw).1 0 with
    | error e' =>
      obtain ⟨why, rfl⟩ := parseDigits_error hd
      rw [hd] at h
      cases h
      exact ⟨_, rfl⟩
    | ok n =>
      rw [hd] at h
      cases h

theorem parseNumlike_error {raw : List UInt8} {offset : Nat} {e : Error}
    (h : parseNumlike raw offset = .error e) : ∃ message, e = .parseError message := by
  unfold parseNumlike at h
  split at h
  · unfold parseIpv4 at h
    simp only at h
    split at h
    · cases h
    · cases h
      exact ⟨_, rfl⟩
  · split at h
    · cases h
    · split at h
      · cases h
      · cases hn : parseInt raw offset with
        | error e' =>
          rw [hn] at h
          cases h
          obtain ⟨why, rfl⟩ := parseInt_error hn
          exact ⟨_, rfl⟩
        | ok n =>
          rw [hn] at h
          cases h

theorem lexHex_at (h : Boundary cs start) (hb : (encode cs)[start]? = some (ascii '0'))
    (hx : (encode cs)[start + 1]? = some (ascii 'x') ∨
      (encode cs)[start + 1]? = some (ascii 'X')) : TokenOr cs start (lexHex (encode cs) start) := by
  have hone := boundary_next h hb (by decide)
  have htwo : Boundary cs (start + 2) := by
    rcases hx with hx | hx
    · exact boundary_next hone hx (by decide)
    · exact boundary_next hone hx (by decide)
  have hscan := boundary_scan hexDigit_ascii htwo
  have hle : start ≤ scan isHexDigit (encode cs) (start + 2) :=
    (Nat.le_add_right _ _).trans (le_scan _ _ _)
  obtain ⟨raw, hslice⟩ := slice_boundary h hscan hle
  unfold lexHex
  simp only [hslice, bind, Except.bind]
  cases hn : parseInt raw start with
  | error e =>
    obtain ⟨why, rfl⟩ := parseInt_error hn
    exact .inr ⟨_, rfl⟩
  | ok n => exact .inl ⟨_, rfl, ⟨_, rfl, rfl⟩, hscan⟩

theorem lexDigit_at (h : Boundary cs start) : TokenOr cs start (lexDigit (encode cs) start) := by
  have hscan := boundary_scan numByte_ascii h
  have hle := le_scan numByte (encode cs) start
  obtain ⟨ext, hext, hturn⟩ := extend_at h hscan hle
  rw [lexDigit_eq, hext]
  cases ext with
  | some turn => exact .inl ⟨turn, rfl, hturn turn rfl⟩
  | none =>
    obtain ⟨raw, hslice⟩ := slice_boundary h hscan hle
    simp only [hslice, bind, Except.bind]
    cases hn : parseNumlike raw start with
    | error e =>
      obtain ⟨message, rfl⟩ := parseNumlike_error hn
      exact .inr ⟨message, rfl⟩
    | ok tok => exact .inl ⟨_, rfl, ⟨_, rfl, rfl⟩, hscan⟩

/-- A word holds ASCII bytes only. -/
theorem wordLen_ascii (bs : List UInt8) : ∀ i < wordLen bs, ∃ b, bs[i]? = some b ∧ b < 0x80 := by
  induction bs with
  | nil => intro i hi; cases hi
  | cons b rest ih =>
    intro i hi
    unfold wordLen at hi
    split at hi
    · rename_i hb
      cases i with
      | zero =>
        refine ⟨b, rfl, ?_⟩
        simp only [Bool.or_eq_true, beq_iff_eq, Bool.and_eq_true] at hb
        rcases hb with (((hb | rfl) | rfl) | rfl) | ⟨rfl, -⟩
        · exact isAlnum_ascii b hb
        all_goals decide
      | succ i => exact ih i (by omega)
    · cases hi

theorem lexWord_at (h : Boundary cs start) : TokenOr cs start (lexWord (encode cs) start) := by
  have hstop : Boundary cs (start + wordLen ((encode cs).drop start)) := by
    apply h.run
    intro i hi
    rw [← List.getElem?_drop]
    exact wordLen_ascii _ i hi
  obtain ⟨word, hslice⟩ := slice_boundary h hstop (Nat.le_add_right _ _)
  unfold lexWord
  simp only [hslice, bind, Except.bind]
  split
  · exact .inl ⟨_, rfl, ⟨_, rfl, rfl⟩, hstop⟩
  · split
    · exact .inl ⟨_, rfl, ⟨_, rfl, rfl⟩, hstop⟩
    · exact .inl ⟨_, rfl, ⟨_, rfl, rfl⟩, hstop⟩

end Scanners

/-! ### A turn and a run -/

/-- The whitespace that `lex` skips. -/
def AsciiWhitespace (c : Char) : Prop := c.toNat ∈ [0x20, 0x09, 0x0a, 0x0c, 0x0d]

/-- A character that a token may start with: ASCII, printed and no blank. -/
def Graphic (c : Char) : Prop := 0x20 < c.toNat ∧ c.toNat < 0x7f

/-- What a turn comes to at a boundary, by the character that stands there. -/
inductive StepAt (cs : List Char) (pos : Nat) : Except Error Turn → Prop where
  | blank {c : Char} (hat : CharAt cs pos c) (hc : AsciiWhitespace c)
      (hnext : Boundary cs (pos + 1)) : StepAt cs pos (.ok (none, pos + 1))
  | token {c : Char} {t : Spanned} {next : Nat} (hat : CharAt cs pos c) (hc : Graphic c)
      (ht : t.offset = pos) (hnext : Boundary cs next) (hlt : pos < next) :
      StepAt cs pos (.ok (some t, next))
  | refused {message : String} : StepAt cs pos (.error (.parseError message))
  | stray {c : Char} (hat : CharAt cs pos c) : StepAt cs pos (.error (.lexError pos c))

theorem TokenOr.stepAt {cs : List Char} {pos : Nat} {c : Char} {r : Except Error Turn}
    (h : TokenOr cs pos r) (hat : CharAt cs pos c) (hc : Graphic c)
    (hlt : ∀ turn, r = .ok turn → pos < turn.2) : StepAt cs pos r := by
  rcases h with ⟨⟨tok, next⟩, rfl, ⟨t, rfl, ht⟩, hnext⟩ | ⟨message, rfl⟩
  · exact .token hat hc ht hnext (hlt _ rfl)
  · exact .refused

/-- The bytes a token may start with. -/
def graphicByte (b : UInt8) : Bool := 0x20 < b && b < 0x7f

theorem mem_of_lookup {α β : Type} [BEq α] [LawfulBEq α] {table : List (α × β)} {a : α} {b : β}
    (h : table.lookup a = some b) : (a, b) ∈ table := by
  obtain ⟨front, rest, rfl, -⟩ := List.lookup_eq_some_iff.mp h
  simp

theorem pair_ascii {b c : UInt8} {t : Token} (h : pairTokens.lookup (b, c) = some t) :
    graphicByte b = true ∧ c < 0x80 := by
  have hall : ∀ e ∈ pairTokens, graphicByte e.1.1 = true ∧ e.1.2 < 0x80 := by decide
  exact hall ((b, c), t) (mem_of_lookup h)

theorem single_graphic {b : UInt8} {t : Token} (h : singleTokens.lookup b = some t) :
    graphicByte b = true := by
  have hall : ∀ e ∈ singleTokens, graphicByte e.1 = true := by decide
  exact hall (b, t) (mem_of_lookup h)

section Step

variable {cs : List Char} {pos : Nat} {b : UInt8}

theorem graphic_of_byte {c : Char} (hc : c.toNat = b.toNat) (hb : graphicByte b = true) :
    Graphic c := by
  unfold graphicByte at hb
  simp only [Bool.and_eq_true, decide_eq_true_eq, UInt8.lt_iff_toNat_lt] at hb
  rw [Graphic, hc]
  exact hb

theorem graphicByte_ascii (hb : graphicByte b = true) : b < 0x80 :=
  ascii_of_all (p := graphicByte) (by decide) b hb

theorem lexStep_at (h : Boundary cs pos) (hlt : pos < (encode cs).length) :
    StepAt cs pos (lexStep (encode cs) pos) := by
  have hforward : ∀ turn, lexStep (encode cs) pos = .ok turn → pos < turn.2 :=
    fun turn => lexStep_forward
  have hb : (encode cs)[pos]? = some (encode cs)[pos] := List.getElem?_eq_getElem hlt
  generalize (encode cs)[pos] = b at hb
  have hbyte : byteAt (encode cs) pos = .ok b := by simp [byteAt, hb]
  have hgraphic : graphicByte b = true → ∃ c, CharAt cs pos c ∧ Graphic c := by
    intro hg
    obtain ⟨c, hat, hc, -⟩ := h.ascii hb (graphicByte_ascii hg)
    exact ⟨c, hat, graphic_of_byte hc hg⟩
  generalize hr : lexStep (encode cs) pos = r at hforward
  unfold lexStep at hr
  simp only [hbyte, bind, Except.bind] at hr
  split at hr
  · rename_i hblank
    subst hr
    have hascii : b < 0x80 := ascii_of_all (p := isWhitespace) (by decide) b hblank
    obtain ⟨c, hat, hc, hnext⟩ := h.ascii hb hascii
    refine .blank hat ?_ hnext
    rw [AsciiWhitespace, hc]
    exact forall_byte
      (P := fun b => isWhitespace b = true → b.toNat ∈ [0x20, 0x09, 0x0a, 0x0c, 0x0d])
      (by decide) b hblank
  split at hr
  · rename_i t hpair
    subst hr
    obtain ⟨b', hb', hpair⟩ := Option.bind_eq_some_iff.mp hpair
    obtain ⟨hg, hascii⟩ := pair_ascii hpair
    obtain ⟨c, hat, hc⟩ := hgraphic hg
    have hone := boundary_next h hb (graphicByte_ascii hg)
    exact .token hat hc rfl (boundary_next hone hb' hascii) (hforward _ rfl)
  split at hr
  · rename_i t hsingle
    subst hr
    have hg := single_graphic hsingle
    obtain ⟨c, hat, hc⟩ := hgraphic hg
    exact .token hat hc rfl (boundary_next h hb (graphicByte_ascii hg)) (hforward _ rfl)
  split at hr
  · rename_i hcolon
    subst hcolon hr
    obtain ⟨c, hat, hc⟩ := hgraphic (by decide)
    exact (lexColon_at h hb).stepAt hat hc hforward
  split at hr
  · rename_i hhex
    obtain ⟨rfl, hx⟩ := hhex
    subst hr
    obtain ⟨c, hat, hc⟩ := hgraphic (by decide)
    exact (lexHex_at h hb hx).stepAt hat hc hforward
  split at hr
  · rename_i hdigit
    subst hr
    obtain ⟨c, hat, hc⟩ := hgraphic (forall_byte
      (P := fun b => isDigit b = true → graphicByte b = true) (by decide) b hdigit)
    exact (lexDigit_at h).stepAt hat hc hforward
  split at hr
  · rename_i hword
    subst hr
    have hg : graphicByte b = true := by
      rcases hword with hword | rfl
      · exact forall_byte (P := fun b => isAlpha b = true → graphicByte b = true)
          (by decide) b hword
      · decide
    obtain ⟨c, hat, hc⟩ := hgraphic hg
    exact (lexWord_at h).stepAt hat hc hforward
  · -- no scanner takes the byte: the character it begins is the stray one
    obtain ⟨c, ⟨pre, post, rfl, rfl⟩, -⟩ := h.charAt hb
    have hdrop : (encode (pre ++ c :: post)).drop (encode pre).length = encode (c :: post) := by
      rw [encode_append, List.drop_left]
    have hslice : slice (encode (pre ++ c :: post)) (encode pre).length
        (encode (pre ++ c :: post)).length = .ok (encode (c :: post)) := by
      rw [slice, if_pos ⟨h.le, Nat.le_refl _, isCharBoundary_of h, isCharBoundary_of .end⟩, hdrop]
      rw [List.take_of_length_le]
      rw [encode_append, List.length_append]
      omega
    rw [hslice] at hr
    simp only [encode_cons, firstChar_encode, Option.getD_some] at hr
    subst hr
    exact .stray ⟨pre, post, rfl, rfl⟩

end Step

section Loop

variable {cs : List Char} {ts : List Spanned} {pos : Nat}

/-- Only one character starts at a position. -/
theorem charAt_unique {c d : Char} (hc : CharAt cs pos c) (hd : CharAt cs pos d) : c = d := by
  have hfirst : ∀ {e}, CharAt cs pos e → firstChar ((encode cs).drop pos) = some e := by
    rintro e ⟨pre, post, rfl, rfl⟩
    rw [encode_append, List.drop_left, encode_cons, firstChar_encode]
  exact Option.some.inj ((hfirst hc).symm.trans (hfirst hd))

/-- The tokens found in front of `pos`. -/
structure Placed (cs : List Char) (ts : List Spanned) (pos : Nat) : Prop where
  increasing : ts.Pairwise fun t u => t.offset < u.offset
  before : ∀ t ∈ ts, t.offset < pos
  starts : ∀ t ∈ ts, ∃ c, CharAt cs t.offset c ∧ Graphic c
  /-- In front of the first one, and of `pos` if there is none, only whitespace stands. -/
  blank : ∀ o c, o < (ts.head?.map (·.offset)).getD pos → CharAt cs o c → AsciiWhitespace c

theorem Placed.skip {c : Char} (h : Placed cs ts pos) (hat : CharAt cs pos c)
    (hc : AsciiWhitespace c) : Placed cs ts (pos + 1) := by
  refine ⟨h.increasing, fun t ht => Nat.lt_succ_of_lt (h.before t ht), h.starts, ?_⟩
  intro o d ho hd
  cases ts with
  | cons t ts => exact h.blank o d ho hd
  | nil =>
    change o < pos + 1 at ho
    rcases Nat.lt_or_eq_of_le (Nat.le_of_lt_succ ho) with hlt | rfl
    · exact h.blank o d hlt hd
    · rwa [charAt_unique hd hat]

theorem Placed.push {c : Char} {t : Spanned} {next : Nat} (h : Placed cs ts pos)
    (hat : CharAt cs pos c) (hc : Graphic c) (ht : t.offset = pos) (hlt : pos < next) :
    Placed cs (ts ++ [t]) next := by
  constructor
  · rw [List.pairwise_append]
    refine ⟨h.increasing, List.pairwise_singleton _ _, ?_⟩
    intro u hu v hv
    rw [List.mem_singleton.mp hv, ht]
    exact h.before u hu
  · intro u hu
    rcases List.mem_append.mp hu with hu | hu
    · exact (h.before u hu).trans hlt
    · rw [List.mem_singleton.mp hu, ht]
      exact hlt
  · intro u hu
    rcases List.mem_append.mp hu with hu | hu
    · exact h.starts u hu
    · rw [List.mem_singleton.mp hu, ht]
      exact ⟨c, hat, hc⟩
  · intro o d ho hd
    cases ts with
    | cons u ts => exact h.blank o d ho hd
    | nil => exact h.blank o d (by simpa [ht] using ho) hd

/-- What the loop ends with: tokens in their places, a refusal that names its text, or the
character no token starts with. -/
inductive LoopAt (cs : List Char) : Except Error (List Spanned) → Prop where
  | tokens {ts : List Spanned} (h : Placed cs ts (encode cs).length) : LoopAt cs (.ok ts)
  | refused {message : String} : LoopAt cs (.error (.parseError message))
  | stray {offset : Nat} {c : Char} (h : CharAt cs offset c) :
      LoopAt cs (.error (.lexError offset c))

theorem lexLoop_at {fuel : Nat} (hf : (encode cs).length - pos ≤ fuel) (h : Boundary cs pos)
    (hp : Placed cs ts pos) : LoopAt cs (lexLoop (encode cs) fuel pos ts) := by
  have hend : ¬ pos < (encode cs).length → pos = (encode cs).length := by
    intro hge
    exact Nat.le_antisymm h.le (Nat.not_lt.mp hge)
  induction fuel generalizing pos ts with
  | zero =>
    have heq := hend (by omega)
    rw [lexLoop_end (Nat.le_of_eq heq.symm)]
    exact .tokens (heq ▸ hp)
  | succ fuel ih =>
    by_cases hlt : pos < (encode cs).length
    · have hstep := lexStep_at h hlt
      rw [lexLoop, if_pos hlt]
      generalize lexStep (encode cs) pos = r at hstep
      cases hstep with
      | blank hat hc hnext =>
        change LoopAt cs (lexLoop (encode cs) fuel (pos + 1) (ts ++ []))
        rw [List.append_nil]
        exact ih (by omega) hnext (hp.skip hat hc) fun hge =>
          Nat.le_antisymm hnext.le (Nat.not_lt.mp hge)
      | token hat hc ht hnext hgt =>
        exact ih (by omega) hnext (hp.push hat hc ht hgt) fun hge =>
          Nat.le_antisymm hnext.le (Nat.not_lt.mp hge)
      | refused => exact .refused
      | stray hat => exact .stray hat
    · have heq := hend hlt
      rw [lexLoop_end (Nat.le_of_eq heq.symm)]
      exact .tokens (heq ▸ hp)

end Loop

/-- `lex` ends with tokens, a refusal or a stray character, and never panics. -/
theorem lex_at (src : String) : LoopAt src.toList (lex src) := by
  unfold lex lexBytes
  rw [toUTF8_eq]
  refine lexLoop_at (Nat.sub_le _ _) .zero ⟨.nil, ?_, ?_, ?_⟩
  · simp
  · simp
  · intro o c ho
    exact absurd ho (Nat.not_lt_zero o)

/-- `char::is_whitespace`: the characters of the Unicode property `White_Space`. -/
def IsWhitespace (c : Char) : Prop :=
  (0x09 ≤ c.toNat ∧ c.toNat ≤ 0x0d) ∨ c.toNat = 0x20 ∨ c.toNat = 0x85 ∨ c.toNat = 0xa0 ∨
    c.toNat = 0x1680 ∨ (0x2000 ≤ c.toNat ∧ c.toNat ≤ 0x200a) ∨ c.toNat = 0x2028 ∨
    c.toNat = 0x2029 ∨ c.toNat = 0x202f ∨ c.toNat = 0x205f ∨ c.toNat = 0x3000

theorem Graphic.not_whitespace {c : Char} (h : Graphic c) : ¬ IsWhitespace c := by
  unfold Graphic at h
  unfold IsWhitespace
  omega

/-- The offsets of tokens increase strictly, a character that is no whitespace starts at each,
and nothing but ASCII whitespace starts in front of the first. The offset of a lexical error is
where its character starts. -/
theorem lex_positions (src : String) :
    match lex src with
    | .ok tokens =>
      (tokens.Pairwise fun t u => t.offset < u.offset) ∧
      (∀ t ∈ tokens, ∃ c, CharAt src.toList t.offset c ∧ ¬ IsWhitespace c) ∧
      ∀ t ∈ tokens.head?, ∀ o c, o < t.offset → CharAt src.toList o c → AsciiWhitespace c
    | .error (.lexError offset c) => CharAt src.toList offset c
    | .error _ => True := by
  have h := lex_at src
  generalize lex src = r at h
  cases h with
  | tokens h =>
    refine ⟨h.increasing, ?_, ?_⟩
    · intro t ht
      obtain ⟨c, hat, hc⟩ := h.starts t ht
      exact ⟨c, hat, hc.not_whitespace⟩
    · intro t ht o c ho hat
      refine h.blank o c ?_ hat
      rw [Option.mem_def.mp ht]
      exact ho
  | refused => trivial
  | stray h => exact h

end PktBaffle.Proofs.Lexer
