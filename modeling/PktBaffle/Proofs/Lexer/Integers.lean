import PktBaffle.Usize
import PktBaffle.Proofs.Lexer.Addresses
import PktBaffle.Proofs.Lexer.Positions

namespace PktBaffle.Proofs.Lexer
open PktBaffle.Lexer PktBaffle.Usize

/-! ### What the literals denote -/

def Digits (radix : Nat) (ds : List UInt8) : Prop := ∀ b ∈ ds, (toDigit radix b).isSome = true

/-- The number that digits denote, the last one being the least. -/
def numeral (radix : Nat) (ds : List UInt8) : Nat :=
  Nat.ofDigits radix (ds.reverse.map fun b => (toDigit radix b).getD 0)

/-- An integer literal of C and its value. -/
inductive IntLiteral : List UInt8 → Nat → Prop where
  | hex {x : UInt8} {ds : List UInt8} (letter : x = ascii 'x' ∨ x = ascii 'X') (nonempty : ds ≠ [])
      (digits : Digits 16 ds) : IntLiteral (ascii '0' :: x :: ds) (numeral 16 ds)
  | octal {ds : List UInt8} (digits : Digits 8 ds) : IntLiteral (ascii '0' :: ds) (numeral 8 ds)
  | decimal {b : UInt8} {ds : List UInt8} (first : b ≠ ascii '0') (digits : Digits 10 (b :: ds)) :
      IntLiteral (b :: ds) (numeral 10 (b :: ds))

section
variable {radix : Nat} {b : UInt8} {ds : List UInt8}

theorem digits_cons : Digits radix (b :: ds) ↔ (toDigit radix b).isSome = true ∧ Digits radix ds :=
  List.forall_mem_cons

theorem numeral_cons :
    numeral radix (b :: ds) = (toDigit radix b).getD 0 * radix ^ ds.length + numeral radix ds := by
  unfold numeral
  rw [List.reverse_cons, List.map_append, Nat.ofDigits_append, List.length_map, List.length_reverse,
    List.map_singleton, Nat.ofDigits_singleton, Nat.mul_comm, Nat.add_comm]

theorem toDigit_lt {d : Nat} (h : toDigit radix b = some d) : d < radix := by
  obtain ⟨hlt, hd⟩ := Option.ite_none_right_eq_some.mp h
  rwa [← Option.some.inj hd]

/-! ### The loop over the digits -/

/-- The check behind each digit refuses what the whole literal would be refused for. -/
theorem parseDigits_ok {invalid : String → Error} {n m : Nat} (hradix : 0 < radix)
    (hn : n ≤ 0xffffffff) : parseDigits invalid radix ds n = .ok m ↔
      Digits radix ds ∧ m = n * radix ^ ds.length + numeral radix ds ∧ m ≤ 0xffffffff := by
  induction ds generalizing n with
  | nil =>
    simp only [parseDigits, Except.ok.injEq, Digits, List.not_mem_nil, List.length_nil, pow_zero,
      numeral, List.reverse_nil, List.map_nil, Nat.ofDigits_nil]
    constructor
    · rintro rfl
      exact ⟨fun b hb => hb.elim, by omega, hn⟩
    · rintro ⟨-, h, -⟩
      omega
  | cons c rest ih =>
    rw [parseDigits, digits_cons, numeral_cons]
    cases hd : toDigit radix c with
    | none => simp
    | some d =>
      have hvalue : n * radix ^ (c :: rest).length +
          ((some d).getD 0 * radix ^ rest.length + numeral radix rest) =
          (n * radix + d) * radix ^ rest.length + numeral radix rest := by
        rw [List.length_cons, pow_succ, Option.getD_some]
        ring
      have hone : 0 < radix ^ rest.length := Nat.pow_pos hradix
      rw [hvalue]
      by_cases hmax : n * radix + d > 0xffffffff
      · have hle : n * radix + d ≤ (n * radix + d) * radix ^ rest.length :=
          Nat.le_mul_of_pos_right _ hone
        simp only [if_pos hmax, reduceCtorEq, false_iff]
        omega
      · simp only [if_neg hmax, Option.isSome_some, true_and]
        exact ih (by omega)

end

/-! ### The accumulator -/

/-- The loop of `parse_int` on a `u64`, where an overflow panics. -/
def parseDigitsU64 (invalid : String → Error) (radix : Nat) :
    List UInt8 → Nat → Except Error Nat
  | [], n => .ok n
  | c :: rest, n =>
    match toDigit radix c with
    | none => .error (invalid (if radix = 8 ∧ isDigit c then "contains non-octal digit"
        else "contains invalid digit"))
    | some d =>
      match checkedMul 64 n radix with
      | none => .error (.panic "attempt to multiply with overflow")
      | some m =>
        match checkedAdd 64 m d with
        | none => .error (.panic "attempt to add with overflow")
        | some n =>
          if n > 0xffffffff then .error (invalid "overflows 32 bits")
          else parseDigitsU64 invalid radix rest n

/-- `parse_int`, with the overflow checks of a `u64`. -/
def parseIntU64 (raw : List UInt8) (offset : Nat) : Except Error UInt64 := do
  let (digits, radix) := radixOf raw
  if digits = [] then .error (invalidNumber raw offset "expected digits")
  else
    let n ← parseDigitsU64 (invalidNumber raw offset) radix digits 0
    return UInt64.ofNat n

/-- The range check keeps the next multiplication and addition far below `2 ^ 64`. -/
theorem parseDigitsU64_eq {invalid : String → Error} {radix n : Nat} (hradix : radix ≤ 16)
    (hn : n ≤ 0xffffffff) (ds : List UInt8) :
    parseDigitsU64 invalid radix ds n = parseDigits invalid radix ds n := by
  induction ds generalizing n with
  | nil => rfl
  | cons c rest ih =>
    rw [parseDigitsU64, parseDigits]
    cases hd : toDigit radix c with
    | none => rfl
    | some d =>
      have hlt := toDigit_lt hd
      have hprod : n * radix ≤ 0xffffffff * 16 := Nat.mul_le_mul hn hradix
      have hmul : checkedMul 64 n radix = some (n * radix) :=
        checkedMul_eq_some.mpr ⟨rfl, by omega⟩
      have hadd : checkedAdd 64 (n * radix) d = some (n * radix + d) :=
        checkedAdd_of_lt (by omega)
      simp only [hmul, hadd]
      split
      · rfl
      · exact ih (by omega)

theorem radixOf_cases (raw : List UInt8) :
    (radixOf raw).2 = 8 ∨ (radixOf raw).2 = 10 ∨ (radixOf raw).2 = 16 := by
  fun_cases radixOf <;> simp

theorem parseIntU64_eq (raw : List UInt8) (offset : Nat) :
    parseIntU64 raw offset = parseInt raw offset := by
  have hradix : (radixOf raw).2 ≤ 16 := by
    have := radixOf_cases raw
    omega
  unfold parseIntU64 parseInt
  simp only [parseDigitsU64_eq hradix (Nat.zero_le _)]

/-! ### `parseInt` accepts the literals of 32 bits -/

theorem letter_not_digit {x : UInt8} (h : x = ascii 'x' ∨ x = ascii 'X') :
    (toDigit 16 x).isSome = false ∧ (toDigit 8 x).isSome = false := by
  rcases h with rfl | rfl
  · decide
  · decide

/-- The prefixes overlap, but no text is a literal in two ways: its first two bytes pick the
radix. -/
theorem intLiteral_radix {s : List UInt8} {v : Nat} : IntLiteral s v ↔ (radixOf s).1 ≠ [] ∧
    Digits (radixOf s).2 (radixOf s).1 ∧ v = numeral (radixOf s).2 (radixOf s).1 := by
  have hzero : numeral 10 [ascii '0'] = numeral 8 [] := by decide
  fun_cases radixOf s with
  | case1 =>
    constructor
    · intro h
      cases h
    · rintro ⟨h, -⟩
      exact absurd rfl h
  | case2 b =>
    constructor
    · intro h
      cases h with
      | octal digits => exact ⟨List.cons_ne_nil _ _, by simp [Digits]; decide, hzero.symm⟩
      | decimal first digits => exact ⟨List.cons_ne_nil _ _, digits, rfl⟩
    · rintro ⟨-, digits, rfl⟩
      by_cases hb : b = ascii '0'
      · subst hb
        rw [hzero]
        exact .octal fun _ h => absurd h List.not_mem_nil
      · exact .decimal hb digits
  | case3 b rest hb =>
    constructor
    · intro h
      cases h with
      | hex letter nonempty digits => exact ⟨nonempty, digits, rfl⟩
      | octal digits =>
        have := digits b List.mem_cons_self
        rw [(letter_not_digit hb).2] at this
        cases this
      | decimal first digits => exact absurd rfl first
    · rintro ⟨nonempty, digits, rfl⟩
      exact .hex hb nonempty digits
  | case4 b rest hb =>
    constructor
    · intro h
      cases h with
      | hex letter nonempty digits => exact absurd letter hb
      | octal digits => exact ⟨List.cons_ne_nil _ _, digits, rfl⟩
      | decimal first digits => exact absurd rfl first
    · rintro ⟨-, digits, rfl⟩
      exact .octal digits
  | case5 a b rest ha =>
    constructor
    · intro h
      cases h with
      | hex letter nonempty digits => exact absurd rfl ha
      | octal digits => exact absurd rfl ha
      | decimal first digits => exact ⟨List.cons_ne_nil _ _, digits, rfl⟩
    · rintro ⟨-, digits, rfl⟩
      exact .decimal ha digits

section
variable {s : List UInt8} {offset : Nat} {n : UInt64}

theorem parseInt_radix : parseInt s offset = .ok n ↔ (radixOf s).1 ≠ [] ∧
    Digits (radixOf s).2 (radixOf s).1 ∧ n.toNat = numeral (radixOf s).2 (radixOf s).1 ∧
      n.toNat ≤ 0xffffffff := by
  have hradix : 0 < (radixOf s).2 := by
    have := radixOf_cases s
    omega
  have hspec := fun m => @parseDigits_ok (radixOf s).2 (radixOf s).1 (invalidNumber s offset) 0 m
    hradix (Nat.zero_le _)
  simp only [Nat.zero_mul, Nat.zero_add] at hspec
  unfold parseInt
  simp only
  split
  · rename_i hnil
    simp [hnil]
  · rename_i hne
    cases hd : parseDigits (invalidNumber s offset) (radixOf s).2 (radixOf s).1 0 with
    | error e =>
      have hnot := fun m => (hspec m).not.mp (by rw [hd]; simp)
      simp only [bind, Except.bind, reduceCtorEq, false_iff]
      rintro ⟨-, hdigits, hvalue, hmax⟩
      exact hnot n.toNat ⟨hdigits, hvalue, hmax⟩
    | ok m =>
      obtain ⟨hdigits, rfl, hmax⟩ := (hspec m).mp hd
      have hof : (UInt64.ofNat (numeral (radixOf s).2 (radixOf s).1)).toNat =
          numeral (radixOf s).2 (radixOf s).1 := by
        rw [UInt64.toNat_ofNat', Nat.mod_eq_of_lt (by omega)]
      simp only [bind, Except.bind, pure, Except.pure, Except.ok.injEq]
      constructor
      · rintro rfl
        exact ⟨hne, hdigits, hof, by omega⟩
      · rintro ⟨-, -, hvalue, -⟩
        rw [← UInt64.toNat_inj, hof, hvalue]

theorem parseInt_iff :
    parseInt s offset = .ok n ↔ IntLiteral s n.toNat ∧ n.toNat ≤ 0xffffffff := by
  rw [parseInt_radix, intLiteral_radix]
  tauto

end

/-! ### Letters and digits behind a digit -/

/-- ASCII letters and digits, of which the first is a digit. -/
structure Numeric (s : List UInt8) : Prop where
  alnum : ∀ b ∈ s, isAlnum b = true
  first : ∃ b ∈ s.head?, isDigit b = true

/-- What follows does not go on with the text, and makes no address of it. -/
structure Apart (s rest : List UInt8) : Prop where
  ends : ∀ b ∈ rest.head?, numByte b = false
  plain : extend (s ++ rest) 0 s.length = .ok none

/-- What is read of the text as one number: behind `0x`, only the hex digits. -/
def lexeme : List UInt8 → List UInt8
  | a :: x :: t =>
    if a = ascii '0' ∧ (x = ascii 'x' ∨ x = ascii 'X') then a :: x :: t.takeWhile isHexDigit
    else a :: x :: t
  | s => s

section
variable {s rest : List UInt8}

theorem numByte_of_isAlnum {b : UInt8} (h : isAlnum b = true) : numByte b = true := by
  simp [numByte, h]

theorem isHexDigit_of_numByte {b : UInt8} (h : numByte b = false) : isHexDigit b = false := by
  by_contra hhex
  rw [Bool.not_eq_false] at hhex
  rw [numByte_of_isAlnum (isAlnum_of_isHexDigit hhex)] at h
  cases h

theorem alnum_ne {b : UInt8} (h : isAlnum b = true) : b ≠ ascii ':' ∧ b ≠ ascii '.' := by
  constructor
  · rintro rfl
    exact absurd h (by decide)
  · rintro rfl
    exact absurd h (by decide)

theorem looks_plain (hs : ∀ b ∈ s, isAlnum b = true) :
    looksLikeIpv6 s = false ∧ looksLikeMac s = false := by
  have hcolons : colons s = 0 :=
    List.count_eq_zero.mpr fun h => (alnum_ne (hs _ h)).1 rfl
  simp [looksLikeIpv6, looksLikeMac, hcolons]

theorem parseNumlike_alnum (hs : ∀ b ∈ s, isAlnum b = true) (offset : Nat) :
    parseNumlike s offset = parseInt s offset >>= fun n => .ok (.num n) := by
  have hdot : s.contains (ascii '.') = false := by
    rw [← Bool.not_eq_true, List.contains_iff_mem]
    exact fun h => (alnum_ne (hs _ h)).2 rfl
  obtain ⟨hipv6, hmac⟩ := looks_plain hs
  unfold parseNumlike
  rw [hdot, hipv6, hmac]
  rfl

theorem lexHex_run {x : UInt8} {ds : List UInt8} (digits : Digits 16 ds)
    (hrest : ∀ b ∈ rest.head?, isHexDigit b = false)
    (hstarts : ∀ b ∈ rest.head?, b < 0x80 ∨ 0xc0 ≤ b) :
    lexHex (ascii '0' :: x :: ds ++ rest) 0 = parseInt (ascii '0' :: x :: ds) 0 >>= fun n =>
      .ok (some ⟨.num n, 0⟩, (ascii '0' :: x :: ds).length) := by
  have hpos := @scan_run isHexDigit [ascii '0', x] ds rest digits hrest
  change scan isHexDigit (ascii '0' :: x :: ds ++ rest) (0 + 2) =
    (ascii '0' :: x :: ds).length at hpos
  unfold lexHex
  simp only [hpos, slice_starts hstarts]
  rfl

theorem lexDigit_run (hs : ∀ b ∈ s, isAlnum b = true) (h : Apart s rest)
    (hstarts : ∀ b ∈ rest.head?, b < 0x80 ∨ 0xc0 ≤ b) :
    lexDigit (s ++ rest) 0 = parseInt s 0 >>= fun n => .ok (some ⟨.num n, 0⟩, s.length) := by
  have hpos := @scan_run numByte [] s rest (fun b hb => numByte_of_isAlnum (hs b hb)) h.ends
  change scan numByte (s ++ rest) 0 = s.length at hpos
  rw [lexDigit_eq, hpos, h.plain, slice_starts hstarts]
  change (parseNumlike s 0 >>= _) = _
  rw [parseNumlike_alnum hs]
  cases parseInt s 0 with
  | error e => rfl
  | ok n => rfl

theorem head_append {P : UInt8 → Prop} {t : List UInt8} (ht : ∀ b ∈ t.head?, P b)
    (hrest : ∀ b ∈ rest.head?, P b) : ∀ b ∈ (t ++ rest).head?, P b := by
  cases t with
  | nil => exact hrest
  | cons a t => exact ht

/-- The turn on letters and digits reads one number, and takes nothing else. -/
theorem lexStep_numeric (hs : Numeric s) (h : Apart s rest)
    (hstarts : ∀ b ∈ rest.head?, b < 0x80 ∨ 0xc0 ≤ b) :
    lexStep (s ++ rest) 0 = parseInt (lexeme s) 0 >>= fun n =>
      .ok (some ⟨.num n, 0⟩, (lexeme s).length) := by
  obtain ⟨b, hb, hdigit⟩ := hs.first
  obtain ⟨t, rfl⟩ : ∃ t, s = b :: t := by
    cases s with
    | nil => cases hb
    | cons a t =>
      cases hb
      exact ⟨t, rfl⟩
  have hcolon : b ≠ ascii ':' := (alnum_ne (hs.alnum b List.mem_cons_self)).1
  have hfirst : (b :: t ++ rest)[0]? = some b := rfl
  have hdecimal := lexDigit_run hs.alnum h hstarts
  rw [lexStep_starts hfirst (starts_digit hdigit), if_neg hcolon, if_pos hdigit]
  cases t with
  | nil =>
    rw [if_neg]
    · exact hdecimal
    · rintro ⟨-, hx | hx⟩
      · have hnum := h.ends (ascii 'x') (by rw [List.head?_eq_getElem?]; exact hx)
        exact absurd hnum (by decide)
      · have hnum := h.ends (ascii 'X') (by rw [List.head?_eq_getElem?]; exact hx)
        exact absurd hnum (by decide)
  | cons x t =>
    have hsecond : ∀ a, (b :: x :: t ++ rest)[0 + 1]? = some a ↔ x = a := fun a => by simp
    simp only [hsecond]
    by_cases hx : b = ascii '0' ∧ (x = ascii 'x' ∨ x = ascii 'X')
    · obtain ⟨hsplit, hall, hend⟩ := takeWhile_split isHexDigit t
      have hmem : ∀ a ∈ t, isAlnum a = true := fun a ha =>
        hs.alnum a (List.mem_cons_of_mem b (List.mem_cons_of_mem x ha))
      have hsrc : b :: x :: t ++ rest = ascii '0' :: x :: t.takeWhile isHexDigit ++
          (t.drop (t.takeWhile isHexDigit).length ++ rest) := by
        rw [hx.1]
        change _ = ascii '0' :: x :: (_ ++ (_ ++ rest))
        rw [← List.append_assoc, ← hsplit]
        rfl
      have hlexeme : lexeme (b :: x :: t) = ascii '0' :: x :: t.takeWhile isHexDigit := by
        rw [lexeme, if_pos hx, hx.1]
      rw [if_pos hx, hlexeme, hsrc]
      refine lexHex_run hall (head_append hend fun a ha => isHexDigit_of_numByte (h.ends a ha)) ?_
      refine head_append (fun a ha => .inl (isAlnum_ascii a (hmem a ?_))) hstarts
      exact List.mem_of_mem_drop (List.mem_of_mem_head? ha)
    · rw [if_neg hx, lexeme, if_neg hx]
      exact hdecimal

/-- A literal whose value fits 32 bits. -/
def Literal32 (s : List UInt8) (n : UInt64) : Prop := IntLiteral s n.toNat ∧ n.toNat ≤ 0xffffffff

/-- Hex digits behind `0x`, with a letter behind them that is none. -/
structure HexRun (s ds word : List UInt8) : Prop where
  text : ∃ x, (x = ascii 'x' ∨ x = ascii 'X') ∧ s = ascii '0' :: x :: (ds ++ word)
  nonempty : ds ≠ []
  digits : Digits 16 ds
  ends : ∃ a t, word = a :: t ∧ isHexDigit a = false

theorem lexeme_cases (s : List UInt8) : lexeme s = s ∨ ∃ x ds word,
    (x = ascii 'x' ∨ x = ascii 'X') ∧ s = ascii '0' :: x :: (ds ++ word) ∧
      lexeme s = ascii '0' :: x :: ds ∧ Digits 16 ds ∧
      ∃ a t, word = a :: t ∧ isHexDigit a = false := by
  fun_cases lexeme s with
  | case1 b x t hx =>
    obtain ⟨rfl, hx⟩ := hx
    obtain ⟨hsplit, hall, hend⟩ := takeWhile_split isHexDigit t
    cases hword : t.drop (t.takeWhile isHexDigit).length with
    | nil =>
      left
      rw [hword, List.append_nil] at hsplit
      rw [← hsplit]
    | cons a w =>
      right
      refine ⟨x, _, a :: w, hx, ?_, rfl, hall, a, w, rfl, ?_⟩
      · rw [← hword, ← hsplit]
      · rw [hword] at hend
        exact hend a rfl
  | case2 => exact .inl rfl
  | case3 => exact .inl rfl

/-- Behind `0x`, letters that are no hex digits make the whole no literal. -/
theorem not_literal {x a : UInt8} {ds t : List UInt8} {v : Nat}
    (hx : x = ascii 'x' ∨ x = ascii 'X') (ha : isHexDigit a = false) :
    ¬ IntLiteral (ascii '0' :: x :: (ds ++ a :: t)) v := by
  intro h
  obtain ⟨-, hdigits, -⟩ := intLiteral_radix.mp h
  rw [radixOf, if_pos rfl, if_pos hx] at hdigits
  have := hdigits a (by simp)
  rw [show (toDigit 16 a).isSome = isHexDigit a from rfl, ha] at this
  cases this

/-- The first turn: the literal, or else an error or the hex digits in front of other letters. -/
theorem lexStep_outcome (hs : Numeric s) (h : Apart s rest)
    (hstarts : ∀ b ∈ rest.head?, b < 0x80 ∨ 0xc0 ≤ b) :
    (∃ n, Literal32 s n ∧ lexStep (s ++ rest) 0 = .ok (some ⟨.num n, 0⟩, s.length)) ∨
    (∀ n, ¬ Literal32 s n) ∧
      ((∃ raw why, lexStep (s ++ rest) 0 = .error (invalidNumber raw 0 why)) ∨
      ∃ ds word n, HexRun s ds word ∧ n.toNat = numeral 16 ds ∧ n.toNat ≤ 0xffffffff ∧
        lexStep (s ++ rest) 0 = .ok (some ⟨.num n, 0⟩, 2 + ds.length)) := by
  have hstep := lexStep_numeric hs h hstarts
  have hiff := fun n => @parseInt_iff (lexeme s) 0 n
  cases hparse : parseInt (lexeme s) 0 with
  | error e =>
    obtain ⟨why, rfl⟩ := parseInt_error hparse
    rw [hparse] at hstep
    right
    refine ⟨fun n hn => ?_, .inl ⟨_, why, hstep⟩⟩
    rcases lexeme_cases s with hwhole | ⟨x, ds, word, hx, rfl, -, -, a, t, rfl, ha⟩
    · rw [hwhole] at hiff hparse
      rw [(hiff n).mpr hn] at hparse
      cases hparse
    · exact not_literal hx ha hn.1
  | ok n =>
    have hlit := (hiff n).mp hparse
    rw [hparse] at hstep
    rcases lexeme_cases s with hwhole | ⟨x, ds, word, hx, htext, hlexeme, hdigits, a, t, hword, ha⟩
    · rw [hwhole] at hlit hstep
      exact .inl ⟨n, hlit, hstep⟩
    · rw [hlexeme] at hlit hstep
      right
      obtain ⟨hne, -, hvalue⟩ := intLiteral_radix.mp hlit.1
      rw [radixOf, if_pos rfl, if_pos hx] at hne hvalue
      refine ⟨fun m hm => ?_, .inr ⟨ds, word, n, ⟨⟨x, hx, htext⟩, hne, hdigits, a, t, hword, ha⟩,
        hvalue, hlit.2, ?_⟩⟩
      · rw [htext, hword] at hm
        exact not_literal hx ha hm.1
      · rw [hstep, Nat.add_comm]
        rfl

theorem Literal32.unique {n m : UInt64} (hn : Literal32 s n) (hm : Literal32 s m) : n = m := by
  obtain ⟨-, -, hvalue⟩ := intLiteral_radix.mp hn.1
  obtain ⟨-, -, hvalue'⟩ := intLiteral_radix.mp hm.1
  rw [← UInt64.toNat_inj, hvalue, hvalue']

theorem lexBytes_error {e : Error} (hs : s ≠ []) (h : lexStep s 0 = .error e) :
    lexBytes s = .error e := by
  have hpos : 0 < s.length := List.length_pos_iff.mpr hs
  unfold lexBytes
  rw [← Nat.sub_add_cancel hpos, lexLoop, if_pos hpos, h]
  rfl

theorem Numeric.ne_nil (h : Numeric s) : s ≠ [] := by
  obtain ⟨b, hb, -⟩ := h.first
  rintro rfl
  cases hb

/-- The tokens of letters and digits and of what follows them. -/
theorem lexed_outcome (hs : Numeric s) (h : Apart s rest)
    (hstarts : ∀ b ∈ rest.head?, b < 0x80 ∨ 0xc0 ≤ b) :
    (∃ n, Literal32 s n ∧ lexed (s ++ rest) =
      (lexed rest).map fun ts => ⟨.num n, 0⟩ :: ts.map (shift s.length)) ∨
    (∀ n, ¬ Literal32 s n) ∧
      ((∃ raw why, lexBytes (s ++ rest) = .error (invalidNumber raw 0 why)) ∨
      ∃ ds word n, HexRun s ds word ∧ n.toNat = numeral 16 ds ∧ n.toNat ≤ 0xffffffff ∧
        lexed (s ++ rest) = (lexed (word ++ rest)).map fun ts =>
          ⟨.num n, 0⟩ :: ts.map (shift (2 + ds.length))) := by
  have hne : s ++ rest ≠ [] := List.append_ne_nil_of_left_ne_nil hs.ne_nil rest
  rcases lexStep_outcome hs h hstarts with ⟨n, hn, hstep⟩ | ⟨hnot, ⟨raw, why, hstep⟩ | hrun⟩
  · refine .inl ⟨n, hn, ?_⟩
    rw [lexed_turn hne, hstep]
    simp [Except.toOption]
  · exact .inr ⟨hnot, .inl ⟨raw, why, lexBytes_error hne hstep⟩⟩
  · obtain ⟨ds, word, n, hhex, hvalue, hmax, hstep⟩ := hrun
    refine .inr ⟨hnot, .inr ⟨ds, word, n, hhex, hvalue, hmax, ?_⟩⟩
    obtain ⟨x, -, htext⟩ := hhex.text
    have hdrop : (s ++ rest).drop (2 + ds.length) = word ++ rest := by
      rw [htext, Nat.add_comm]
      change (ds ++ word ++ rest).drop ds.length = _
      rw [List.append_assoc, List.drop_left]
    rw [lexed_turn hne, hstep]
    simp [Except.toOption, hdrop]

theorem apart_nil : Apart s [] where
  ends := by
    rintro b ⟨⟩
  plain := by
    unfold extend
    rw [List.append_nil, if_neg]
    · rfl
    · simp

/-- Letters and digits behind a letter are one word. -/
theorem lexed_word {a : UInt8} {t : List UInt8} (hall : ∀ b ∈ a :: t, isAlnum b = true)
    (ha : isHexDigit a = false) :
    lexed (a :: t) = some [⟨keywordOrIdent (text (a :: t)), 0⟩] := by
  have halpha : isAlpha a = true := by
    have halnum := hall a List.mem_cons_self
    rw [isAlnum, Bool.or_eq_true] at halnum
    refine halnum.resolve_right fun hdigit => ?_
    rw [isHexDigit_of_isDigit hdigit] at ha
    cases ha
  obtain ⟨hipv6, hmac⟩ := looks_plain hall
  have hrun := @lexWord_run (a :: t) [] (fun b hb => by simp [hall b hb]) (by rintro b ⟨⟩)
  rw [List.append_nil, hipv6, hmac] at hrun
  rw [lexed_turn (List.cons_ne_nil _ _), lexStep_alpha (b := a) rfl halpha, hrun]
  simp [Except.toOption, lexed_nil]

/-- The tokens of letters and digits alone. -/
theorem lexed_alone (hs : Numeric s) :
    (∃ n, Literal32 s n ∧ lexed s = some [⟨.num n, 0⟩]) ∨ (∀ n, ¬ Literal32 s n) ∧
      ((∃ raw why, lexBytes s = .error (invalidNumber raw 0 why)) ∨
      ∃ ds word n, HexRun s ds word ∧ n.toNat = numeral 16 ds ∧ n.toNat ≤ 0xffffffff ∧
        lexed s = some [⟨.num n, 0⟩, ⟨keywordOrIdent (text word), 2 + ds.length⟩]) := by
  have h := lexed_outcome hs apart_nil (by rintro b ⟨⟩)
  rw [List.append_nil, lexed_nil] at h
  rcases h with ⟨n, hn, hlexed⟩ | ⟨hnot, herror | hrun⟩
  · exact .inl ⟨n, hn, hlexed⟩
  · exact .inr ⟨hnot, .inl herror⟩
  · obtain ⟨ds, word, n, hhex, hvalue, hmax, hlexed⟩ := hrun
    refine .inr ⟨hnot, .inr ⟨ds, word, n, hhex, hvalue, hmax, ?_⟩⟩
    obtain ⟨x, -, htext⟩ := hhex.text
    obtain ⟨a, t, rfl, ha⟩ := hhex.ends
    have hall : ∀ b ∈ a :: t, isAlnum b = true := by
      intro b hb
      apply hs.alnum
      rw [htext]
      exact List.mem_cons_of_mem _ (List.mem_cons_of_mem _ (List.mem_append_right _ hb))
    rw [hlexed, List.append_nil, lexed_word hall ha]
    simp [shift]

end

/-! ### Integer literals -/

theorem utf8_starts (src : String) : ∀ b ∈ (utf8 src).head?, b < 0x80 ∨ 0xc0 ≤ b := by
  intro b hb
  rw [utf8, Utf8.toUTF8_eq, List.head?_eq_getElem?] at hb
  exact Utf8.Boundary.zero.starts hb

theorem lex_eq_ok {src : String} {ts : List Spanned} :
    lex src = .ok ts ↔ lexed (utf8 src) = some ts := by
  change lexBytes (utf8 src) = _ ↔ (lexBytes (utf8 src)).toOption = _
  cases lexBytes (utf8 src) <;> simp [Except.toOption]

/-- Letters and digits that start with a digit are the one number that they denote as a literal of
C, if that fits 32 bits, and otherwise an error, or behind `0x` the number of the hex digits and
then a word. The same holds in front of anything that makes no address of them, and the
accumulator never overflows. -/
theorem integer_literals (src : String) (hsrc : Numeric (utf8 src)) :
    (∀ n, lex src = .ok [⟨.num n, 0⟩] ↔ Literal32 (utf8 src) n) ∧
    ((∀ n, ¬ Literal32 (utf8 src) n) →
      (∃ raw why, lex src = .error (invalidNumber raw 0 why)) ∨
      ∃ ds word n, HexRun (utf8 src) ds word ∧ n.toNat = numeral 16 ds ∧ n.toNat ≤ 0xffffffff ∧
        lex src = .ok [⟨.num n, 0⟩, ⟨keywordOrIdent (text word), 2 + ds.length⟩]) ∧
    (∀ rest : String, Apart (utf8 src) (utf8 rest) →
      (∀ n, Literal32 (utf8 src) n → (lex (src ++ rest)).toOption =
        (lex rest).toOption.map fun ts => ⟨.num n, 0⟩ :: ts.map (shift (utf8 src).length)) ∧
      ((∀ n, ¬ Literal32 (utf8 src) n) →
        (∃ raw why, lex (src ++ rest) = .error (invalidNumber raw 0 why)) ∨
        ∃ ds word n, HexRun (utf8 src) ds word ∧ n.toNat = numeral 16 ds ∧
          n.toNat ≤ 0xffffffff ∧ (lex (src ++ rest)).toOption =
            (lexed (word ++ utf8 rest)).map fun ts =>
              ⟨.num n, 0⟩ :: ts.map (shift (2 + ds.length)))) ∧
    ∀ raw offset why, parseIntU64 raw offset = parseInt raw offset ∧
      parseIntU64 raw offset ≠ .error (.panic why) := by
  refine ⟨fun n => ?_, fun hnot => ?_, fun rest hrest => ?_, fun raw offset why => ?_⟩
  · rw [lex_eq_ok]
    rcases lexed_alone hsrc with ⟨m, hm, hlexed⟩ | ⟨hnot, ⟨raw, why, herror⟩ | hrun⟩
    · rw [hlexed]
      constructor
      · intro h
        simp only [Option.some.injEq, List.cons.injEq, Spanned.mk.injEq, Token.num.injEq,
          and_true] at h
        exact h ▸ hm
      · intro hn
        rw [hn.unique hm]
    · rw [lexed, herror]
      constructor
      · intro h
        cases h
      · intro hn
        exact absurd hn (hnot n)
    · obtain ⟨ds, word, m, -, -, -, hlexed⟩ := hrun
      rw [hlexed]
      constructor
      · intro h
        simp at h
      · intro hn
        exact absurd hn (hnot n)
  · rcases lexed_alone hsrc with ⟨m, hm, -⟩ | ⟨-, herror | hrun⟩
    · exact absurd hm (hnot m)
    · exact .inl herror
    · obtain ⟨ds, word, m, hhex, hvalue, hmax, hlexed⟩ := hrun
      exact .inr ⟨ds, word, m, hhex, hvalue, hmax, lex_eq_ok.mpr hlexed⟩
  · have houtcome := lexed_outcome hsrc hrest (utf8_starts rest)
    have hlex : lex (src ++ rest) = lexBytes (utf8 src ++ utf8 rest) := by
      rw [← utf8_append]
      rfl
    rw [hlex]
    constructor
    · intro n hn
      rcases houtcome with ⟨m, hm, hlexed⟩ | ⟨hnot, -⟩
      · rw [hn.unique hm]
        exact hlexed
      · exact absurd hn (hnot n)
    · intro hnot
      rcases houtcome with ⟨m, hm, -⟩ | ⟨-, hrefused⟩
      · exact absurd hm (hnot m)
      · exact hrefused
  · refine ⟨parseIntU64_eq raw offset, fun h => ?_⟩
    rw [parseIntU64_eq] at h
    obtain ⟨why, hwhy⟩ := parseInt_error h
    cases hwhy

/-- An octal literal, alone and in front of a parenthesis. -/
theorem octal_literal : lex "017" = .ok [⟨.num 15, 0⟩] ∧
    (lex ("017" ++ ")")).toOption = some [⟨.num 15, 0⟩, ⟨.rParen, 3⟩] := by
  have htext : utf8 "017" = [ascii '0', ascii '1', ascii '7'] := by decide
  have hparen : utf8 ")" = [ascii ')'] := by decide
  have hsrc : Numeric (utf8 "017") := by
    rw [htext]
    exact ⟨by simp; decide, ascii '0', rfl, by decide⟩
  have hliteral : Literal32 (utf8 "017") 15 := by
    refine ⟨?_, by decide⟩
    exact @IntLiteral.octal [ascii '1', ascii '7'] (by simp [Digits]; decide)
  have hrest : Apart (utf8 "017") (utf8 ")") := by
    rw [htext, hparen]
    exact ⟨by simp; decide, rfl⟩
  obtain ⟨halone, -, hbefore, -⟩ := integer_literals "017" hsrc
  refine ⟨(halone 15).mpr hliteral, ?_⟩
  rw [(hbefore ")" hrest).1 15 hliteral]
  decide

end PktBaffle.Proofs.Lexer
