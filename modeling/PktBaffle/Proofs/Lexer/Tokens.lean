import PktBaffle.Parser

namespace PktBaffle.Proofs.Lexer
open PktBaffle.Lexer

/-- A token as the lexer makes them: a number of at most 32 bits, and a dotted address of two to
four octets with zeros behind the ones written. -/
def Lexed : Token → Prop
  | .num n => n.toNat ≤ 0xffffffff
  | .ipv4 octets parts => 2 ≤ parts.toNat ∧ parts.toNat ≤ 4 ∧
      ∀ i (h : i < 4), parts.toNat ≤ i → octets[i] = 0
  | _ => True

/-! ### The tables -/

/-- A token that carries no number and no dotted address, or a constant of at most 32 bits. -/
def plain : Token → Bool
  | .num n => n.toNat ≤ 0xffffffff
  | .ipv4 .. => false
  | _ => true

theorem lexed_of_plain {t : Token} (h : plain t = true) : Lexed t := by
  cases t with
  | num n => exact (of_decide_eq_true h : n.toNat ≤ 0xffffffff)
  | ipv4 octets parts => cases h
  | _ => trivial

theorem plain_lookup {α : Type} [BEq α] {table : List (α × Token)}
    (h : table.all (fun e => plain e.2) = true) {a : α} {t : Token}
    (hl : table.lookup a = some t) : plain t = true := by
  induction table with
  | nil => cases hl
  | cons e table ih =>
    rw [List.all_cons, Bool.and_eq_true] at h
    rw [List.lookup_cons] at hl
    split at hl
    · cases hl
      exact h.1
    · exact ih h.2 hl

theorem lexed_keywordOrIdent (s : String) : Lexed (keywordOrIdent s) := by
  unfold keywordOrIdent
  cases h : keywords.lookup s with
  | none => trivial
  | some t => exact lexed_of_plain (plain_lookup (by decide) h)

/-! ### Numbers -/

theorem parseDigits_le {invalid : String → Error} {radix : Nat} {digits : List UInt8} {n v : Nat}
    (hn : n ≤ 0xffffffff) (h : parseDigits invalid radix digits n = .ok v) : v ≤ 0xffffffff := by
  induction digits generalizing n with
  | nil =>
    cases h
    exact hn
  | cons c rest ih =>
    rw [parseDigits] at h
    split at h
    · cases h
    · split at h
      · cases h
      · rename_i d hd hle
        exact ih (Nat.le_of_not_lt hle) h

theorem parseInt_le {raw : List UInt8} {offset : Nat} {n : UInt64}
    (h : parseInt raw offset = .ok n) : n.toNat ≤ 0xffffffff := by
  unfold parseInt at h
  simp only at h
  split at h
  · cases h
  · cases hd : parseDigits (invalidNumber raw offset) (radixOf raw).2 (radixOf raw).1 0 with
    | error e =>
      rw [hd] at h
      cases h
    | ok v =>
      rw [hd] at h
      cases h
      have hv := parseDigits_le (Nat.zero_le _) hd
      change (UInt64.ofNat v).toNat ≤ _
      rw [UInt64.toNat_ofNat_of_lt' (by simp only [UInt64.size]; omega)]
      exact hv

/-! ### Dotted addresses -/

theorem length_splitOn (sep : UInt8) (s : List UInt8) :
    (s.splitOn sep).length = s.count sep + 1 := by
  induction s with
  | nil => rfl
  | cons b s ih =>
    unfold List.splitOn at ih ⊢
    rw [List.splitOnP_cons_eq_if_modifyHead, List.count_cons]
    split
    · simp [ih]
    · simp [ih]

theorem length_of_mapM {α β : Type} {f : α → Option β} {l : List α} {r : List β}
    (h : l.mapM f = some r) : r.length = l.length := by
  induction l generalizing r with
  | nil =>
    cases h
    rfl
  | cons a l ih =>
    rw [List.mapM_cons] at h
    obtain ⟨b, -, h⟩ := Option.bind_eq_some_iff.mp h
    obtain ⟨bs, hbs, h⟩ := Option.bind_eq_some_iff.mp h
    cases h
    simp [ih hbs]

theorem parseIpv4_lexed {raw : List UInt8} {offset : Nat} {t : Token}
    (hdot : raw.contains (ascii '.') = true) (h : parseIpv4 raw offset = .ok t) : Lexed t := by
  unfold parseIpv4 at h
  simp only at h
  have hcount : 0 < raw.count (ascii '.') := List.count_pos_iff.mpr (List.contains_iff_mem.mp hdot)
  have hlen := length_splitOn (ascii '.') raw
  split at h
  · rename_i octets ho
    cases h
    split at ho
    · rename_i hle
      have hl : octets.length = (raw.splitOn (ascii '.')).length := length_of_mapM ho
      have hparts : (UInt8.ofNat (raw.splitOn (ascii '.')).length).toNat =
          (raw.splitOn (ascii '.')).length := by
        simp only [UInt8.toNat_ofNat']
        omega
      refine ⟨by omega, by omega, fun i hi hz => ?_⟩
      rw [hparts, ← hl] at hz
      simp [List.getElem?_eq_none hz]
    · cases ho
  · cases h

theorem parseNumlike_lexed {raw : List UInt8} {offset : Nat} {t : Token}
    (h : parseNumlike raw offset = .ok t) : Lexed t := by
  unfold parseNumlike at h
  split at h
  · exact parseIpv4_lexed ‹_› h
  · split at h
    · cases h
      trivial
    · split at h
      · cases h
        trivial
      · cases hn : parseInt raw offset with
        | error e =>
          rw [hn] at h
          cases h
        | ok n =>
          rw [hn] at h
          cases h
          exact parseInt_le hn

/-! ### The loop -/

/-- A turn whose token, if it has one, is one the lexer makes. -/
def TurnOk : Except Error Turn → Prop
  | .ok (some t, _) => Lexed t.token
  | _ => True

theorem TurnOk.bind {α : Type} {m : Except Error α} {f : α → Except Error Turn}
    (h : ∀ a, m = .ok a → TurnOk (f a)) : TurnOk (m >>= f) := by
  cases m with
  | error e => trivial
  | ok a => exact h a rfl

theorem turnOk_ipv6 {accepts : List UInt8 → Bool} {src : List UInt8} {start pos : Nat} {turn : Turn}
    (h : lexIpv6 accepts src start pos = .ok (some turn)) : TurnOk (.ok turn) := by
  unfold lexIpv6 at h
  cases hs : slice src start
      (scan (fun b => isHexDigit b || b == ascii ':' || b == ascii '.') src pos) with
  | error e =>
    simp only [hs] at h
    cases h
  | ok candidate =>
    simp only [hs] at h
    change Except.ok _ = _ at h
    obtain ⟨addr, -, rfl⟩ := Option.map_eq_some_iff.mp (Except.ok.inj h)
    trivial

theorem turnOk_mac {src : List UInt8} {start pos : Nat} {turn : Turn}
    (h : lexMac src start pos = .ok (some turn)) : TurnOk (.ok turn) := by
  unfold lexMac at h
  split at h
  · cases h
  · split at h
    · cases h
    · rename_i tmp _ _
      cases hs : slice src start tmp with
      | error e =>
        simp only [hs] at h
        cases h
      | ok candidate =>
        simp only [hs] at h
        change Except.ok _ = _ at h
        obtain ⟨mac, -, rfl⟩ := Option.map_eq_some_iff.mp (Except.ok.inj h)
        trivial

theorem turnOk_getD {turn : Option Turn} {pos n : Nat} {t : Token} (ht : Lexed t)
    (h : ∀ u, turn = some u → TurnOk (.ok u)) :
    TurnOk (.ok (turn.getD (some ⟨t, pos⟩, n))) := by
  cases turn with
  | none => exact ht
  | some u => exact h u rfl

theorem turnOk_colon (src : List UInt8) (pos : Nat) : TurnOk (lexColon src pos) := by
  unfold lexColon
  extract_lets rest
  split
  · exact TurnOk.bind fun addr ha => turnOk_getD trivial fun u hu => turnOk_ipv6 (hu ▸ ha)
  · exact trivial

theorem turnOk_hex (src : List UInt8) (start : Nat) : TurnOk (lexHex src start) :=
  TurnOk.bind fun _ _ => TurnOk.bind fun _ hn => parseInt_le hn

theorem turnOk_numlike (src : List UInt8) (start pos : Nat) : TurnOk (do
    let tok ← parseNumlike (← slice src start pos) start
    return (some ⟨tok, start⟩, pos)) :=
  TurnOk.bind fun _ _ => TurnOk.bind fun _ ht => parseNumlike_lexed ht

theorem turnOk_digit (src : List UInt8) (start : Nat) : TurnOk (lexDigit src start) := by
  unfold lexDigit
  extract_lets pos fallback rest
  have hfallback : ∀ addr, (∀ u, addr = some u → TurnOk (.ok u)) → TurnOk (fallback addr) := by
    intro addr ha
    cases addr with
    | some u => exact ha u rfl
    | none => exact turnOk_numlike src start pos
  have hrest : ∀ mac, (∀ u, mac = some u → TurnOk (.ok u)) → TurnOk (rest mac) := by
    intro mac hm
    cases mac with
    | some u => exact hm u rfl
    | none =>
      show TurnOk (if _ then _ else _)
      split
      · exact TurnOk.bind fun addr ha => hfallback addr fun u hu => turnOk_ipv6 (hu ▸ ha)
      · exact hfallback none (fun u hu => nomatch hu)
  split
  · exact TurnOk.bind fun mac hm => hrest mac fun u hu => turnOk_mac (hu ▸ hm)
  · exact hrest none (fun u hu => nomatch hu)

theorem turnOk_word (src : List UInt8) (start : Nat) : TurnOk (lexWord src start) := by
  unfold lexWord
  refine TurnOk.bind fun word _ => ?_
  split
  · trivial
  · split
    · trivial
    · exact lexed_keywordOrIdent _

theorem turnOk_step (src : List UInt8) (pos : Nat) : TurnOk (lexStep src pos) := by
  unfold lexStep
  refine TurnOk.bind fun b _ => ?_
  split
  · trivial
  · split
    · rename_i t ht
      obtain ⟨c, -, hc⟩ := Option.bind_eq_some_iff.mp ht
      exact lexed_of_plain (plain_lookup (by decide) hc)
    · split
      · rename_i t ht
        exact lexed_of_plain (plain_lookup (by decide) ht)
      · split
        · exact turnOk_colon src pos
        · split
          · exact turnOk_hex src pos
          · split
            · exact turnOk_digit src pos
            · split
              · exact turnOk_word src pos
              · exact TurnOk.bind fun _ _ => trivial

theorem lexLoop_lexed {src : List UInt8} {fuel pos : Nat} {tokens out : List Spanned}
    (ht : ∀ t ∈ tokens, Lexed t.token) (h : lexLoop src fuel pos tokens = .ok out) :
    ∀ t ∈ out, Lexed t.token := by
  induction fuel generalizing pos tokens with
  | zero =>
    unfold lexLoop at h
    split at h
    · cases h
    · cases h
      exact ht
  | succ fuel ih =>
    unfold lexLoop at h
    split at h
    · have hturn := turnOk_step src pos
      cases hs : lexStep src pos with
      | error e =>
        rw [hs] at h
        cases h
      | ok turn =>
        rw [hs] at h hturn
        refine ih (fun t hmem => ?_) h
        rcases List.mem_append.mp hmem with hold | hnew
        · exact ht t hold
        · obtain ⟨tok, next⟩ := turn
          cases tok with
          | none => cases hnew
          | some t' =>
            rw [Option.toList_some, List.mem_singleton] at hnew
            rw [hnew]
            exact hturn
    · cases h
      exact ht

/-- Every token of a lexed filter is one the lexer makes. -/
theorem lex_lexed {src : String} {tokens : List Spanned} (h : lex src = .ok tokens) :
    ∀ t ∈ tokens, Lexed t.token := by
  unfold lex lexBytes at h
  exact lexLoop_lexed (fun t ht => absurd ht List.not_mem_nil) h

end PktBaffle.Proofs.Lexer
