import PktBaffle.Proofs.Lexer.Addresses

namespace PktBaffle.Proofs.Lexer
open PktBaffle.Lexer

/-! ### Bytes that end every token before them -/

/-- The operator characters. -/
def operators : List UInt8 := "+-*/%&|^<>=!".toList.map ascii

def isOperator (b : UInt8) : Bool := operators.contains b

/-- What a constant may stand behind: a blank, a bracket, a parenthesis or an operator. -/
def Precedes (b : UInt8) : Bool :=
  isWhitespace b || ("[]()".toList.map ascii).contains b || isOperator b

/-- What a constant may stand in front of: a blank, a closing bracket, the `:` of a size or an
operator. -/
def Follows (b : UInt8) : Bool :=
  isWhitespace b || ("]):".toList.map ascii).contains b || isOperator b

/-- No scanner goes on over the byte, but that a word may go on over a `-`. -/
structure Seam (b : UInt8) : Prop where
  num : numByte b = false
  addr : addrByte b = false
  hex : isHexDigit b = false
  alpha : isAlpha b = false
  word : (isAlnum b || b == ascii '_' || b == ascii ':' || b == ascii '.') = false
  colon : b ≠ ascii ':'
  ex : b ≠ ascii 'x' ∧ b ≠ ascii 'X'
  small : b < 0x80

instance (b : UInt8) : Decidable (Seam b) :=
  decidable_of_iff (numByte b = false ∧ addrByte b = false ∧ isHexDigit b = false ∧
    isAlpha b = false ∧ (isAlnum b || b == ascii '_' || b == ascii ':' || b == ascii '.') = false ∧
    b ≠ ascii ':' ∧ (b ≠ ascii 'x' ∧ b ≠ ascii 'X') ∧ b < 0x80)
    ⟨fun ⟨h₁, h₂, h₃, h₄, h₅, h₆, h₇, h₈⟩ => ⟨h₁, h₂, h₃, h₄, h₅, h₆, h₇, h₈⟩,
      fun h => ⟨h.num, h.addr, h.hex, h.alpha, h.word, h.colon, h.ex, h.small⟩⟩

theorem seam_of_precedes {b : UInt8} : Precedes b = true → Seam b :=
  forall_byte (P := fun b => Precedes b = true → Seam b) (by decide) b

section
variable {u x : List UInt8} {c : UInt8} {p : UInt8 → Bool} {k : Nat}

theorem takeWhile_seam (hp : p c = false) : (u ++ c :: x).takeWhile p = u.takeWhile p := by
  induction u with
  | nil => simp [hp]
  | cons a u ih =>
    rw [List.cons_append, List.takeWhile_cons, List.takeWhile_cons, ih]

theorem scan_seam (hp : p c = false) (hk : k ≤ u.length) :
    scan p (u ++ c :: x) k = scan p u k := by
  unfold scan
  rw [List.drop_append_of_le_length hk, takeWhile_seam hp]

theorem scan_le (hk : k ≤ u.length) : scan p u k ≤ u.length := by
  have hpre : (u.drop k).takeWhile p <+: u.drop k := List.takeWhile_prefix p
  have := hpre.length_le
  rw [List.length_drop] at this
  unfold scan
  omega

theorem getElem?_seam {a : UInt8} (ha : a ≠ c) (hk : k ≤ u.length) :
    (u ++ c :: x)[k]? = some a ↔ u[k]? = some a := by
  rcases Nat.lt_or_eq_of_le hk with h | rfl
  · rw [List.getElem?_append_left h]
  · rw [List.getElem?_append_right (Nat.le_refl _), List.getElem?_eq_none (Nat.le_refl u.length)]
    simp [ha.symm]

theorem slice_seam (hc : c < 0x80) {a b : Nat} (hab : a ≤ b) (hb : b ≤ u.length) :
    slice (u ++ c :: x) a b = slice u a b := by
  have hbound : ∀ k ≤ u.length, isCharBoundary (u ++ c :: x) k = isCharBoundary u k := by
    intro k hk
    unfold isCharBoundary
    rcases Nat.lt_or_eq_of_le hk with h | rfl
    · have hne : k ≠ (u ++ c :: x).length := by
        rw [List.length_append, List.length_cons]
        omega
      have hne' : k ≠ u.length := by omega
      rw [List.getElem?_append_left h, beq_eq_false_iff_ne.mpr hne, beq_eq_false_iff_ne.mpr hne']
    · rw [List.getElem?_append_right (Nat.le_refl _)]
      simp [hc]
  have hlen : b ≤ (u ++ c :: x).length := by
    rw [List.length_append]
    omega
  unfold slice
  rw [hbound a (hab.trans hb), hbound b hb, List.drop_append_of_le_length (hab.trans hb),
    List.take_append_of_le_length (by rw [List.length_drop]; omega)]
  simp only [hab, hlen, hb, true_and]

theorem macGroups_le {n tmp : Nat} (hk : k ≤ u.length) (h : macGroups u n k = some tmp) :
    tmp ≤ u.length := by
  induction n generalizing k with
  | zero =>
    cases h
    exact hk
  | succ n ih =>
    unfold macGroups at h
    simp only at h
    split at h
    · rename_i hcolon
      have hlt := (List.getElem?_eq_some_iff.mp hcolon).1
      split at h
      · cases h
      · exact ih (scan_le hlt) h
    · cases h

theorem wordLen_le (u : List UInt8) : wordLen u ≤ u.length := by
  induction u with
  | nil => exact Nat.le_refl _
  | cons b u ih =>
    unfold wordLen
    rw [List.length_cons]
    split <;> omega

theorem macGroups_seam (hhex : isHexDigit c = false) (hcolon' : c ≠ ascii ':') (n : Nat)
    (hk : k ≤ u.length) :
    macGroups (u ++ c :: x) n k = macGroups u n k := by
  induction n generalizing k with
  | zero => rfl
  | succ n ih =>
    unfold macGroups
    have hiff := @getElem?_seam u x c k _ hcolon'.symm hk
    by_cases hcolon : u[k]? = some (ascii ':')
    · have hlt := (List.getElem?_eq_some_iff.mp hcolon).1
      rw [if_pos hcolon, if_pos (hiff.mpr hcolon), scan_seam hhex hlt]
      simp only [ih (scan_le hlt)]
    · rw [if_neg hcolon, if_neg fun h => hcolon (hiff.mp h)]

variable (hc : Seam c)
include hc

theorem lexIpv6_seam (accepts : List UInt8 → Bool) (hk : k ≤ u.length) :
    lexIpv6 accepts (u ++ c :: x) 0 k = lexIpv6 accepts u 0 k := by
  rw [lexIpv6_eq, lexIpv6_eq, scan_seam hc.addr hk, slice_seam hc.small (Nat.zero_le _) (scan_le hk)]

theorem lexMac_seam (hk : k ≤ u.length) : lexMac (u ++ c :: x) 0 k = lexMac u 0 k := by
  unfold lexMac
  rw [macGroups_seam hc.hex hc.colon 5 hk]
  cases h : macGroups u 5 k with
  | none => rfl
  | some tmp =>
    have hle := macGroups_le hk h
    simp only [getElem?_seam hc.colon.symm hle, slice_seam hc.small (Nat.zero_le _) hle]

theorem extend_seam (hk : k ≤ u.length) : extend (u ++ c :: x) 0 k = extend u 0 k := by
  unfold extend
  simp only [getElem?_seam hc.colon.symm hk, lexMac_seam hc hk, lexIpv6_seam hc _ hk]

theorem lexDigit_seam : lexDigit (u ++ c :: x) 0 = lexDigit u 0 := by
  have hk := scan_le (p := numByte) (Nat.zero_le u.length)
  rw [lexDigit_eq, lexDigit_eq, scan_seam hc.num (Nat.zero_le _), extend_seam hc hk,
    slice_seam hc.small (Nat.zero_le _) hk]

theorem lexHex_seam (hk : 2 ≤ u.length) : lexHex (u ++ c :: x) 0 = lexHex u 0 := by
  unfold lexHex
  simp only [Nat.zero_add, scan_seam hc.hex hk, slice_seam hc.small (Nat.zero_le _) (scan_le hk)]

theorem lexColon_seam (hu : u ≠ []) : lexColon (u ++ c :: x) 0 = lexColon u 0 := by
  have hpos : 0 + 1 ≤ u.length := List.length_pos_iff.mpr hu
  rw [lexColon_eq, lexColon_eq]
  simp only [getElem?_seam hc.colon.symm hpos, lexIpv6_seam hc _ (Nat.zero_le _)]

/-- A word goes on behind the seam only if it covers all before it. -/
theorem wordLen_seam (h : c ≠ ascii '-' ∨ wordLen u < u.length ∨ ∀ b ∈ x.head?, isAlpha b = false) :
    wordLen (u ++ c :: x) = wordLen u := by
  induction u with
  | nil =>
    change wordLen (c :: x) = 0
    unfold wordLen
    rw [if_neg]
    · rw [hc.word, Bool.false_or]
      rcases h with h | h | h
      · simp [h]
      · exact absurd h (Nat.lt_irrefl 0)
      · cases x with
        | nil => simp
        | cons b x => simp [h b rfl]
  | cons b u ih =>
    have hhead : ((u ++ c :: x).head?.map isAlpha).getD false = (u.head?.map isAlpha).getD false := by
      cases u with
      | nil => simp [hc.alpha]
      | cons a u => rfl
    rw [List.cons_append, wordLen, wordLen, hhead]
    split
    · rename_i hb
      rw [ih]
      rcases h with h | h | h
      · exact .inl h
      · refine .inr (.inl ?_)
        rw [wordLen, if_pos hb, List.length_cons] at h
        omega
      · exact .inr (.inr h)
    · rfl

theorem lexWord_seam (h : wordLen (u ++ c :: x) = wordLen u) :
    lexWord (u ++ c :: x) 0 = lexWord u 0 := by
  unfold lexWord
  simp only [List.drop_zero, h, Nat.zero_add,
    slice_seam hc.small (Nat.zero_le _) (wordLen_le u)]

end

/-! ### A turn before a seam -/

/-- The token of a separator, if it is no blank. -/
def separator (c : UInt8) : Option Token :=
  if isWhitespace c then none else singleTokens.lookup c

section
variable {u x : List UInt8} {c : UInt8}

/-- The rest starts with a letter or a digit. -/
def AlnumStart (x : List UInt8) : Prop := ∃ a t, x = a :: t ∧ isAlnum a = true

theorem pair_alnum {a : UInt8} (h : isAlnum a = true) : pairTokens.lookup (c, a) = none := by
  refine lookup_none (List.all_eq_true.mpr fun e he => ?_)
  have hall : pairTokens.all (fun e => !isAlnum e.1.2) = true := by decide
  have := List.all_eq_true.mp hall e he
  rw [bne_iff_ne]
  intro heq
  rw [heq, h] at this
  cases this

/-- A separator is a turn by itself in front of a word or a number, or at the end. -/
theorem lexStep_separator (hc : Precedes c = true) (hx : x = [] ∨ AlnumStart x) :
    lexStep (c :: x) 0 = .ok ((separator c).map fun t => ⟨t, 0⟩, 1) := by
  have hsingle : ∀ c, Precedes c = true → isWhitespace c = false → (singleTokens.lookup c).isSome = true :=
    fun c => forall_byte (P := fun c => Precedes c = true → isWhitespace c = false →
      (singleTokens.lookup c).isSome = true) (by decide) c
  have hpair : ((c :: x)[0 + 1]?).bind (fun a => pairTokens.lookup (c, a)) = none := by
    rcases hx with rfl | ⟨a, t, rfl, ha⟩
    · rfl
    · exact pair_alnum ha
  unfold lexStep separator
  change (if isWhitespace c then _ else _) = _
  cases hw : isWhitespace c with
  | true => rfl
  | false =>
    obtain ⟨t, ht⟩ := Option.isSome_iff_exists.mp (hsingle c hc hw)
    simp only [Bool.false_eq_true, if_false, hpair, ht]
    rfl

/-- A whole word: one that the lexer takes up to its end. -/
structure Word (w : List UInt8) : Prop where
  start : ∃ b ∈ w.head?, wordStart b
  whole : wordLen w = w.length

/-- What stands behind a seam changes the turns before it only where a word goes on over a `-`. -/
theorem lexStep_seam (hc : Precedes c = true) (hx : x = [] ∨ AlnumStart x)
    (hword : c ≠ ascii '-' ∨ ¬ Word u ∨ ∀ b ∈ x.head?, isAlpha b = false) :
    (lexStep (u ++ c :: x) 0).toOption = (lexStep (u ++ [c]) 0).toOption := by
  have hseam := seam_of_precedes hc
  cases u with
  | nil =>
    rw [List.nil_append, List.nil_append, lexStep_separator hc hx, lexStep_separator hc (.inl rfl)]
  | cons b u =>
    have hnext : (b :: u ++ c :: x)[0 + 1]? = (b :: u ++ [c])[0 + 1]? := by
      cases u <;> rfl
    have hne : b :: u ≠ [] := List.cons_ne_nil b u
    unfold lexStep
    rw [hnext]
    change Except.toOption (if isWhitespace b then _ else _) =
      Except.toOption (if isWhitespace b then _ else _)
    split
    · rfl
    split
    · rfl
    split
    · rfl
    split
    · rw [lexColon_seam hseam hne, lexColon_seam hseam hne]
    split
    · rename_i hhex
      have hlen : 2 ≤ (b :: u).length := by
        cases u with
        | nil =>
          rcases hhex.2 with h | h
          · exact absurd (Option.some.inj h) hseam.ex.1
          · exact absurd (Option.some.inj h) hseam.ex.2
        | cons a u =>
          simp only [List.length_cons]
          omega
      rw [lexHex_seam hseam hlen, lexHex_seam hseam hlen]
    split
    · rw [lexDigit_seam hseam, lexDigit_seam hseam]
    split
    · rename_i hstart
      have hlen : wordLen (b :: u ++ c :: x) = wordLen (b :: u) := by
        refine wordLen_seam hseam (hword.imp_right (Or.imp_left fun h => ?_))
        refine Nat.lt_of_le_of_ne (wordLen_le _) fun heq => h ⟨⟨b, rfl, hstart⟩, heq⟩
      rw [lexWord_seam hseam hlen, lexWord_seam hseam (wordLen_seam hseam (.inr (.inr (by simp))))]
    · rw [toOption_bind, toOption_bind]
      cases (slice (b :: u ++ c :: x) 0 (b :: u ++ c :: x).length).toOption <;>
        cases (slice (b :: u ++ [c]) 0 (b :: u ++ [c]).length).toOption <;> rfl

end

/-! ### A turn stays inside the source -/

section
variable {src : List UInt8} {turn : Turn} {k : Nat}

theorem lexMac_within (hk : k ≤ src.length) (h : lexMac src 0 k = .ok (some turn)) :
    turn.2 ≤ src.length := by
  unfold lexMac at h
  split at h
  · cases h
  · rename_i tmp htmp
    split at h
    · cases h
    · obtain ⟨candidate, -, h⟩ := bind_eq_ok h
      obtain ⟨mac, -, rfl⟩ := Option.map_eq_some_iff.mp (Except.ok.inj h)
      exact macGroups_le hk htmp

theorem extend_within (hk : k ≤ src.length) (h : extend src 0 k = .ok (some turn)) :
    turn.2 ≤ src.length := by
  unfold extend at h
  split at h
  · obtain ⟨mac, hmac, h⟩ := bind_eq_ok h
    cases mac with
    | some t =>
      cases h
      exact lexMac_within hk hmac
    | none =>
      rw [lexIpv6_forward h]
      exact scan_le hk
  · cases h

theorem lexWord_end (h : lexWord src 0 = .ok turn) : turn.2 = wordLen src := by
  unfold lexWord at h
  obtain ⟨word, -, h⟩ := bind_eq_ok h
  rw [List.drop_zero, Nat.zero_add] at h
  split at h
  · cases h
    rfl
  · split at h
    · cases h
      rfl
    · cases h
      rfl

theorem lexStep_within (h : lexStep src 0 = .ok turn) : turn.2 ≤ src.length := by
  unfold lexStep at h
  obtain ⟨b, hbyte, h⟩ := bind_eq_ok h
  have hb : src[0]? = some b := by
    unfold byteAt at hbyte
    split at hbyte
    · cases hbyte
      assumption
    · cases hbyte
  have hpos : 0 + 1 ≤ src.length := (List.getElem?_eq_some_iff.mp hb).1
  split at h
  · cases h
    exact hpos
  split at h
  · rename_i hpair
    obtain ⟨c, hc, -⟩ := Option.bind_eq_some_iff.mp hpair
    cases h
    exact (List.getElem?_eq_some_iff.mp hc).1
  split at h
  · cases h
    exact hpos
  split at h
  · rw [lexColon_eq] at h
    obtain ⟨addr, haddr, h⟩ := bind_eq_ok h
    cases addr with
    | none =>
      cases h
      exact hpos
    | some t =>
      cases h
      split at haddr
      · rw [Option.getD_some, lexIpv6_forward haddr]
        exact scan_le (Nat.zero_le _)
      · cases haddr
  split at h
  · rename_i hhex
    obtain ⟨raw, -, h⟩ := bind_eq_ok h
    obtain ⟨n, -, h⟩ := bind_eq_ok h
    cases h
    refine scan_le ?_
    rcases hhex.2 with hx | hx
    · exact (List.getElem?_eq_some_iff.mp hx).1
    · exact (List.getElem?_eq_some_iff.mp hx).1
  split at h
  · rw [lexDigit_eq] at h
    obtain ⟨ext, hext, h⟩ := bind_eq_ok h
    have hscan : scan numByte src 0 ≤ src.length := scan_le (Nat.zero_le _)
    cases ext with
    | some t =>
      cases h
      exact extend_within hscan hext
    | none =>
      obtain ⟨raw, -, h⟩ := bind_eq_ok h
      obtain ⟨tok, -, h⟩ := bind_eq_ok h
      cases h
      exact hscan
  split at h
  · rw [lexWord_end h]
    exact wordLen_le src
  · obtain ⟨rest, -, h⟩ := bind_eq_ok h
    cases h

end

/-! ### Lexing up to a seam -/

/-- The tokens of the whole are those before the byte `c`, with it, and then those behind it. -/
def Splits (u : List UInt8) (c : UInt8) (x : List UInt8) : Prop :=
  lexed (u ++ c :: x) = (lexed (u ++ [c])).bind fun ts =>
    (lexed x).map fun r => ts ++ r.map (shift (u.length + 1))

section
variable {u x : List UInt8} {c : UInt8}

theorem shift_append (d k : Nat) (ts r : List Spanned) :
    (ts ++ r.map (shift k)).map (shift d) = ts.map (shift d) ++ r.map (shift (k + d)) := by
  rw [List.map_append, List.map_map]
  congr 2
  funext t
  exact shift_shift d k t

/-- If the first turn does not see what is behind the seam, and the rest splits, the whole does. -/
theorem splits_turn (hstep : (lexStep (u ++ c :: x) 0).toOption = (lexStep (u ++ [c]) 0).toOption)
    (hrest : ∀ turn, lexStep (u ++ [c]) 0 = .ok turn → turn.2 ≤ u.length →
      Splits (u.drop turn.2) c x) : Splits u c x := by
  unfold Splits
  rw [lexed_turn (by simp), lexed_turn (by simp), hstep]
  cases hturn : lexStep (u ++ [c]) 0 with
  | error e => rfl
  | ok turn =>
    have hwithin := lexStep_within hturn
    rw [List.length_append, List.length_singleton] at hwithin
    simp only [Except.toOption, Option.bind_some]
    rcases Nat.lt_or_eq_of_le hwithin with hlt | heq
    · have hle : turn.2 ≤ u.length := by omega
      have hsplit := hrest turn hturn hle
      unfold Splits at hsplit
      rw [List.drop_append_of_le_length hle, List.drop_append_of_le_length hle, hsplit]
      cases lexed (u.drop turn.2 ++ [c]) with
      | none => rfl
      | some ts =>
        simp only [Option.bind_some, Option.map_map, Option.map_some]
        congr 1
        funext r
        have hlen : (u.drop turn.2).length + 1 + turn.2 = u.length + 1 := by
          rw [List.length_drop]
          omega
        rw [Function.comp_apply, shift_append, hlen, List.append_assoc]
    · have hall : turn.2 = (u ++ [c]).length := by simp [heq]
      have hx : (u ++ c :: x).drop turn.2 = x := by
        have hassoc : u ++ c :: x = (u ++ [c]) ++ x := by simp
        rw [hall, hassoc, List.drop_left]
      rw [hx, hall, List.drop_length, lexed_nil]
      simp

/-- Lexing splits behind a separator, but for a `-` before a letter. -/
theorem lexed_seam (hc : Precedes c = true) (hx : AlnumStart x)
    (h : c ≠ ascii '-' ∨ ∀ b ∈ x.head?, isAlpha b = false) : Splits u c x := by
  induction hn : u.length using Nat.strongRecOn generalizing u with
  | _ n ih =>
    refine splits_turn (lexStep_seam hc (.inr hx) (h.imp_right .inr)) fun turn hturn hle => ?_
    have hforward := lexStep_forward hturn
    exact ih (u.drop turn.2).length (by rw [List.length_drop]; omega) rfl

end

/-! ### Words that no other token runs into -/

/-- A whole word that starts with `t` or `i`, as the named constants do: no number and no address
goes on over it. -/
structure Named (w : List UInt8) : Prop extends Word w where
  initial : w.head? = some (ascii 't') ∨ w.head? = some (ascii 'i')

/-- A letter that is in no number and in no address. -/
structure Foreign (a : UInt8) : Prop where
  addr : addrByte a = false
  hex : isHexDigit a = false
  ten : (toDigit 10 a).isSome = false
  any : (toDigit 8 a).isSome = false
  colon : a ≠ ascii ':'
  dot : a ≠ ascii '.'
  plus : a ≠ ascii '+'
  alnum : isAlnum a = true
  ex : a ≠ ascii 'x' ∧ a ≠ ascii 'X'
  zero : a ≠ ascii '0'

theorem foreign_initial {a : UInt8} (h : a = ascii 't' ∨ a = ascii 'i') : Foreign a := by
  rcases h with rfl | rfl <;> constructor <;> decide

section
variable {a : UInt8} {s : List UInt8}

/-- A byte that is no separator is in one of the parts. -/
theorem mem_splitOn {sep : UInt8} (h : a ∈ s) (hne : a ≠ sep) : ∃ part ∈ s.splitOn sep, a ∈ part := by
  rw [← @List.intercalate_splitOn _ s _ _ sep] at h
  have hne' : s.splitOn sep ≠ [] := List.splitOn_ne_nil sep s
  obtain ⟨g, gs, hparts⟩ := List.exists_cons_of_ne_nil hne'
  rw [hparts] at h ⊢
  change a ∈ joined sep (g :: gs) at h
  rw [joined_cons, List.mem_append, List.mem_flatMap] at h
  rcases h with h | ⟨g', hg', h⟩
  · exact ⟨g, List.mem_cons_self, h⟩
  · rcases List.mem_cons.mp h with rfl | h
    · exact absurd rfl hne
    · exact ⟨g', List.mem_cons_of_mem g hg', h⟩

theorem mapM_none {α β : Type} {f : α → Option β} {l : List α} {a : α} (ha : a ∈ l)
    (h : f a = none) : l.mapM f = none := by
  induction l with
  | nil => cases ha
  | cons b l ih =>
    rw [List.mapM_cons]
    rcases List.mem_cons.mp ha with rfl | ha
    · rw [h]
      rfl
    · rw [ih ha]
      cases f b <;> rfl

theorem fromStrRadix_foreign {radix max : Nat} (ha : a ∈ s) (hplus : a ≠ ascii '+')
    (hdigit : (toDigit radix a).isSome = false) : fromStrRadix radix max s = none := by
  have hmem : a ∈ (if s.head? = some (ascii '+') then s.tail else s) := by
    split
    · rename_i hhead
      obtain ⟨t, rfl⟩ := List.head?_eq_some_iff.mp hhead
      rcases List.mem_cons.mp ha with rfl | ha
      · exact absurd rfl hplus
      · exact ha
    · exact ha
  unfold fromStrRadix
  refine if_neg fun h => ?_
  have := List.all_eq_true.mp h.2.1 a hmem
  rw [hdigit] at this
  cases this

theorem parseMac_foreign (h : Foreign a) (ha : a ∈ s) : parseMac s = none := by
  obtain ⟨part, hpart, hmem⟩ := mem_splitOn ha h.colon
  unfold parseMac
  simp only
  split
  · rfl
  · rw [mapM_none hpart (fromStrRadix_foreign hmem h.plus h.hex)]
    rfl

theorem fromStr_foreign (h : Foreign a) (ha : a ∈ s) : Ipv6Addr.fromStr s = none := by
  cases hs : Ipv6Addr.fromStr s with
  | none => rfl
  | some addr =>
    have := (fromStr_text hs).1 a ha
    rw [h.addr] at this
    cases this

theorem parseDigits_foreign {invalid : String → Error} {radix n : Nat} (ha : a ∈ s)
    (hdigit : (toDigit radix a).isSome = false) : ∃ e, parseDigits invalid radix s n = .error e := by
  induction s generalizing n with
  | nil => cases ha
  | cons b s ih =>
    unfold parseDigits
    rcases List.mem_cons.mp ha with rfl | ha
    · rw [Option.isSome_eq_false_iff, Option.isNone_iff_eq_none] at hdigit
      rw [hdigit]
      exact ⟨_, rfl⟩
    · split
      · exact ⟨_, rfl⟩
      · split
        · exact ⟨_, rfl⟩
        · exact ih ha

theorem parseInt_foreign (h : Foreign a) (ha : a ∈ s) (o : Nat) : ∃ e, parseInt s o = .error e := by
  have hradix : a ∈ (radixOf s).1 ∧ (toDigit (radixOf s).2 a).isSome = false := by
    unfold radixOf
    split
    · cases ha
    · exact ⟨ha, h.ten⟩
    · split
      · rename_i b c rest hzero
        have hmem : a ∈ c :: rest := by
          rcases List.mem_cons.mp ha with rfl | ha
          · exact absurd hzero h.zero
          · exact ha
        split
        · rename_i hx
          refine ⟨?_, h.hex⟩
          rcases List.mem_cons.mp hmem with rfl | hmem
          · rcases hx with hx | hx
            · exact absurd hx h.ex.1
            · exact absurd hx h.ex.2
          · exact hmem
        · exact ⟨hmem, h.any⟩
      · exact ⟨ha, h.ten⟩
  unfold parseInt
  simp only
  split
  · exact ⟨_, rfl⟩
  · obtain ⟨e, he⟩ := @parseDigits_foreign a _ (invalidNumber s o) (radixOf s).2 0 hradix.1 hradix.2
    rw [he]
    exact ⟨e, rfl⟩

theorem parseNumlike_foreign (h : Foreign a) (ha : a ∈ s) (o : Nat) :
    ∃ e, parseNumlike s o = .error e := by
  unfold parseNumlike
  split
  · obtain ⟨part, hpart, hmem⟩ := mem_splitOn ha h.dot
    unfold parseIpv4
    simp only
    have hnone : (if (s.splitOn (ascii '.')).length ≤ 4 then
        (s.splitOn (ascii '.')).mapM (fromStrRadix 10 255) else none) = none := by
      split
      · exact mapM_none hpart (fromStrRadix_foreign hmem h.plus h.ten)
      · rfl
    rw [hnone]
    exact ⟨_, rfl⟩
  · rw [fromStr_foreign h ha, ite_self, parseMac_foreign h ha, ite_self]
    obtain ⟨e, he⟩ := parseInt_foreign h ha o
    simp only [he]
    exact ⟨e, rfl⟩

/-- A scan that ends behind a byte has it among what it took. -/
theorem mem_slice {src raw : List UInt8} {n k : Nat} (hb : src[k]? = some a) (hk : k < n)
    (h : slice src 0 n = .ok raw) : a ∈ raw := by
  unfold slice at h
  split at h
  · cases h
    rw [List.drop_zero, Nat.sub_zero]
    obtain ⟨hlt, rfl⟩ := List.getElem?_eq_some_iff.mp hb
    exact List.mem_take_iff_getElem.mpr ⟨k, by omega, rfl⟩
  · cases h

/-- No number goes on over a foreign byte: what it has read ends before that, or is refused. -/
theorem lexDigit_foreign {q t : List UInt8} {turn : Turn} (h : Foreign a)
    (hturn : lexDigit (q ++ a :: t) 0 = .ok turn) : turn.2 ≤ q.length := by
  have hb : (q ++ a :: t)[q.length]? = some a := by simp
  rw [lexDigit_eq] at hturn
  obtain ⟨ext, hext, hturn⟩ := bind_eq_ok hturn
  rcases Nat.lt_or_ge q.length (scan numByte (q ++ a :: t) 0) with hlt | hle
  · -- The run takes the byte, and every reading of it fails.
    exfalso
    cases ext with
    | some turn' =>
      unfold extend at hext
      split at hext
      · obtain ⟨mac, hmac, hext⟩ := bind_eq_ok hext
        cases mac with
        | some turn'' =>
          unfold lexMac at hmac
          split at hmac
          · cases hmac
          · rename_i tmp htmp
            have hle := le_macGroups htmp
            split at hmac
            · cases hmac
            · obtain ⟨candidate, hslice, hmac⟩ := bind_eq_ok hmac
              rw [parseMac_foreign h (mem_slice hb (by omega) hslice)] at hmac
              cases hmac
        | none =>
          rw [lexIpv6_eq] at hext
          obtain ⟨candidate, hslice, hext⟩ := bind_eq_ok hext
          have hle := le_scan addrByte (q ++ a :: t) (scan numByte (q ++ a :: t) 0)
          rw [fromStr_foreign h (mem_slice hb (by omega) hslice), ite_self] at hext
          cases hext
      · cases hext
    | none =>
      obtain ⟨raw, hslice, hturn⟩ := bind_eq_ok hturn
      obtain ⟨tok, htok, -⟩ := bind_eq_ok hturn
      obtain ⟨e, he⟩ := parseNumlike_foreign h (mem_slice hb hlt hslice) 0
      rw [he] at htok
      cases htok
  · cases ext with
    | some turn' =>
      cases hturn
      unfold extend at hext
      split at hext
      · obtain ⟨mac, hmac, hext⟩ := bind_eq_ok hext
        cases mac with
        | some turn'' =>
          cases hext
          unfold lexMac at hmac
          rw [macGroups_seam h.hex h.colon 5 hle] at hmac
          split at hmac
          · cases hmac
          · rename_i tmp htmp
            split at hmac
            · cases hmac
            · obtain ⟨candidate, -, hmac⟩ := bind_eq_ok hmac
              obtain ⟨mac, -, rfl⟩ := Option.map_eq_some_iff.mp (Except.ok.inj hmac)
              exact macGroups_le hle htmp
        | none =>
          rw [lexIpv6_forward hext, scan_seam h.addr hle]
          exact scan_le hle
      · cases hext
    | none =>
      obtain ⟨raw, -, hturn⟩ := bind_eq_ok hturn
      obtain ⟨tok, -, hturn⟩ := bind_eq_ok hturn
      cases hturn
      exact hle

theorem wordLen_append {q v : List UInt8} (h : q.length < wordLen (q ++ v)) :
    wordLen (q ++ v) = q.length + wordLen v := by
  induction q with
  | nil => simp
  | cons b q ih =>
    rw [List.cons_append, wordLen] at h ⊢
    split at h
    · rename_i hb
      rw [if_pos hb, ih (by rw [List.length_cons] at h; omega), List.length_cons]
      omega
    · omega

theorem wordLen_whole {q v : List UInt8} (h : wordLen q = q.length) :
    wordLen (q ++ v) = q.length + wordLen v := by
  induction q with
  | nil => simp
  | cons b q ih =>
    rw [wordLen, List.length_cons] at h
    rw [List.cons_append, wordLen]
    split at h
    · rename_i hb
      have hq : wordLen q = q.length := by omega
      have hb' : (isAlnum b || b == ascii '_' || b == ascii ':' || b == ascii '.' ||
          (b == ascii '-' && ((q ++ v).head?.map isAlpha).getD false)) = true := by
        cases q with
        | nil =>
          simp only [List.head?_nil, Option.map_none, Option.getD_none, Bool.and_false,
            Bool.or_false] at hb
          rw [hb, Bool.true_or]
        | cons a q => exact hb
      rw [if_pos hb', ih hq, List.length_cons]
      omega
    · omega

/-- No other token runs into a named word. -/
theorem named_uncrossed {q w : List UInt8} (hw : Named w) (hnot : ¬ Word (q ++ w)) {turn : Turn}
    (h : lexStep (q ++ w ++ [ascii '-']) 0 = .ok turn) : turn.2 ≤ q.length := by
  obtain ⟨a, t, rfl⟩ : ∃ a t, w = a :: t := by
    cases w with
    | nil =>
      rcases hw.initial with h | h <;> cases h
    | cons a t => exact ⟨a, t, rfl⟩
  have ha : Foreign a := foreign_initial (by simpa using hw.initial)
  cases q with
  | nil => exact absurd hw.toWord hnot
  | cons b q =>
    have htext : b :: q ++ (a :: t) ++ [ascii '-'] = b :: q ++ a :: (t ++ [ascii '-']) := by simp
    have hpos : 1 ≤ (b :: q).length := by simp
    rw [htext] at h
    unfold lexStep at h
    change (if isWhitespace b then _ else _ : Except Error Turn) = _ at h
    split at h
    · cases h
      exact hpos
    split at h
    · rename_i hpair
      cases h
      cases q with
      | nil =>
        have : pairTokens.lookup (b, a) = none := pair_alnum ha.alnum
        rw [show ([b] ++ a :: (t ++ [ascii '-']))[0 + 1]? = some a from rfl, Option.bind_some, this]
          at hpair
        cases hpair
      | cons c q =>
        simp only [List.length_cons]
        omega
    split at h
    · cases h
      exact hpos
    split at h
    · rw [lexColon_eq] at h
      obtain ⟨addr, haddr, h⟩ := bind_eq_ok h
      cases addr with
      | none =>
        cases h
        exact hpos
      | some turn' =>
        cases h
        split at haddr
        · rw [Option.getD_some, lexIpv6_forward haddr, scan_seam ha.addr (Nat.zero_le _)]
          exact scan_le (Nat.zero_le _)
        · cases haddr
    split at h
    · rename_i hhex
      have hlen : 2 ≤ (b :: q).length := by
        cases q with
        | nil =>
          rcases hhex.2 with hx | hx
          · exact absurd (Option.some.inj hx) ha.ex.1
          · exact absurd (Option.some.inj hx) ha.ex.2
        | cons c q =>
          simp only [List.length_cons]
          omega
      obtain ⟨raw, -, h⟩ := bind_eq_ok h
      obtain ⟨n, -, h⟩ := bind_eq_ok h
      cases h
      change scan isHexDigit _ (0 + 2) ≤ _
      rw [Nat.zero_add, scan_seam ha.hex hlen]
      exact scan_le hlen
    split at h
    · exact lexDigit_foreign ha h
    split at h
    · rename_i hstart
      have hseam : Seam (ascii '-') := by decide
      rw [lexWord_end h, ← htext, wordLen_seam hseam (.inr (.inr (by simp)))]
      by_contra hlt
      have happ := @wordLen_append (b :: q) (a :: t) (Nat.not_le.mp hlt)
      refine hnot ⟨⟨b, rfl, hstart⟩, ?_⟩
      rw [happ, hw.whole, List.length_append]
    · obtain ⟨rest, -, h⟩ := bind_eq_ok h
      cases h

end

/-! ### Lexing up to a `-` -/

/-- The lexer comes, with some tokens or an error, to a whole word that the `-` stands behind. -/
def WordUp (u : List UInt8) : Prop :=
  ∃ s w ts, u = s ++ w ∧ Word w ∧ ∀ x, AlnumStart x → lexed (u ++ ascii '-' :: x) =
    (lexed (w ++ ascii '-' :: x)).map fun r => ts ++ r.map (shift s.length)

theorem wordUp_turn {u : List UInt8} {turn : Turn} (hturn : lexStep (u ++ [ascii '-']) 0 = .ok turn)
    (hle : turn.2 ≤ u.length) (hnot : ¬ Word u) (h : WordUp (u.drop turn.2)) : WordUp u := by
  obtain ⟨s, w, ts, hdrop, hw, hlexed⟩ := h
  refine ⟨u.take turn.2 ++ s, w, turn.1.toList ++ ts.map (shift turn.2), ?_, hw, fun x hx => ?_⟩
  · rw [List.append_assoc, ← hdrop, List.take_append_drop]
  · have hstep := @lexStep_seam u x (ascii '-') (by decide) (.inr hx) (.inr (.inl hnot))
    rw [lexed_turn (by simp), hstep, hturn]
    simp only [Except.toOption, Option.bind_some]
    rw [List.drop_append_of_le_length hle, hlexed x hx, Option.map_map]
    congr 1
    funext r
    have hlen : s.length + turn.2 = (u.take turn.2 ++ s).length := by
      rw [List.length_append, List.length_take]
      omega
    rw [Function.comp_apply, shift_append, hlen, List.append_assoc]

/-- Either lexing splits behind the `-`, or a word runs up to it, which is the case at least where
a named word does and the source up to there has tokens. -/
theorem lexed_dash (u : List UInt8) : ((∀ x, AlnumStart x → Splits u (ascii '-') x) ∧
    (lexed (u ++ [ascii '-']) = none ∨ ∀ q w, Named w → u ≠ q ++ w)) ∨ WordUp u := by
  induction hn : u.length using Nat.strongRecOn generalizing u with
  | _ n ih =>
    by_cases hword : Word u
    · refine .inr ⟨[], u, [], rfl, hword, fun x _ => ?_⟩
      have : shift 0 = id := funext fun t => rfl
      simp [this]
    have hstep : ∀ x, AlnumStart x → _ := fun x hx =>
      @lexStep_seam u x (ascii '-') (by decide) (.inr hx) (.inr (.inl hword))
    cases hturn : lexStep (u ++ [ascii '-']) 0 with
    | error e =>
      refine .inl ⟨fun x hx => splits_turn (hstep x hx) fun turn h => ?_, .inl ?_⟩
      · rw [hturn] at h
        cases h
      · rw [lexed_turn (by simp), hturn]
        rfl
    | ok turn =>
      have hforward := lexStep_forward hturn
      have hcross : ∀ q w, Named w → u = q ++ w → turn.2 ≤ q.length := by
        rintro q w hw rfl
        exact named_uncrossed hw hword hturn
      by_cases hle : turn.2 ≤ u.length
      · rcases ih (u.drop turn.2).length (by rw [List.length_drop]; omega) _ rfl with ⟨hsplit, hnone⟩ | hup
        · refine .inl ⟨fun x hx => splits_turn (hstep x hx) fun turn' h _ => ?_, ?_⟩
          · rw [hturn] at h
            cases h
            exact hsplit x hx
          · rcases hnone with hnone | hnone
            · refine .inl ?_
              rw [lexed_turn (by simp), hturn]
              simp only [Except.toOption, Option.bind_some]
              rw [List.drop_append_of_le_length hle, hnone]
              rfl
            · refine .inr fun q w hw hu => hnone (q.drop turn.2) w hw ?_
              rw [hu, List.drop_append_of_le_length (hcross q w hw hu)]
        · exact .inr (wordUp_turn hturn hle hword hup)
      · refine .inl ⟨fun x hx => splits_turn (hstep x hx) fun turn' h hle' => ?_, .inr fun q w hw hu => ?_⟩
        · rw [hturn] at h
          cases h
          exact absurd hle' hle
        · have := hcross q w hw hu
          rw [hu, List.length_append] at hle
          omega

end PktBaffle.Proofs.Lexer
