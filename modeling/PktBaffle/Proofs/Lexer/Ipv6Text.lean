import PktBaffle.Proofs.Lexer.Runs

namespace PktBaffle.Proofs.Lexer
open PktBaffle.Lexer

/-! ### The text of an IPv6 address -/

theorem readNumber_some {radix maxDigits max v : Nat} {zeros : Bool} {s r : List UInt8}
    (h : readNumber radix maxDigits max zeros s = some (v, r)) :
    ∃ ds, s = ds ++ r ∧ ds ≠ [] ∧ ds.length ≤ maxDigits ∧
      (∀ b ∈ ds, (toDigit radix b).isSome = true) ∧
      ∀ b ∈ r.head?, (toDigit radix b).isSome = false := by
  unfold readNumber at h
  simp only at h
  split at h
  · cases h
  rename_i hdigits
  split at h
  · cases h
  split at h
  · cases h
  obtain ⟨-, rfl⟩ := Prod.mk.inj (Option.some.inj h)
  rw [not_or, Nat.not_lt] at hdigits
  obtain ⟨hsplit, hall, hend⟩ := takeWhile_split (fun b => (toDigit radix b).isSome) s
  exact ⟨_, hsplit, hdigits.1, hdigits.2, hall, hend⟩

theorem readGivenChar_some {c : UInt8} {s r : List UInt8} :
    readGivenChar c s = some r ↔ s = c :: r := by
  cases s with
  | nil => simp [readGivenChar]
  | cons b s =>
    unfold readGivenChar
    split
    · simp_all
    · simp_all

theorem toDigit_ten (b : UInt8) : (toDigit 10 b).isSome = isDigit b :=
  forall_byte (P := fun b => (toDigit 10 b).isSome = isDigit b) (by decide) b

theorem isHexDigit_of_isDigit {b : UInt8} : isDigit b = true → isHexDigit b = true :=
  forall_byte (P := fun b => isDigit b = true → isHexDigit b = true) (by decide) b

theorem hexLetter {b : UInt8} : isHexDigit b = true → ¬ isDigit b = true → isAlpha b = true :=
  forall_byte (P := fun b => isHexDigit b = true → ¬ isDigit b = true → isAlpha b = true)
    (by decide) b

theorem isAlnum_of_isHexDigit {b : UInt8} : isHexDigit b = true → isAlnum b = true :=
  forall_byte (P := fun b => isHexDigit b = true → isAlnum b = true) (by decide) b

theorem addrByte_of_isHexDigit {b : UInt8} (h : isHexDigit b = true) : addrByte b = true := by
  simp [addrByte, h]

theorem readOctet_some {v : Nat} {s r : List UInt8} (h : readOctet s = some (v, r)) :
    ∃ ds, s = ds ++ r ∧ ds ≠ [] ∧ (∀ b ∈ ds, isDigit b = true) ∧
      ∀ b ∈ r.head?, isDigit b = false := by
  obtain ⟨ds, hs, hne, -, hall, hend⟩ := readNumber_some h
  simp only [toDigit_ten] at hall hend
  exact ⟨ds, hs, hne, hall, hend⟩

theorem readIpv4Addr_some {v : UInt16 × UInt16} {s r : List UInt8}
    (h : readIpv4Addr s = some (v, r)) :
    ∃ ds u, s = ds ++ ascii '.' :: u ++ r ∧ ds ≠ [] ∧ (∀ b ∈ ds, isDigit b = true) ∧
      ∀ b ∈ u, addrByte b = true := by
  have haddr : ∀ ds : List UInt8, (∀ b ∈ ds, isDigit b = true) → ∀ b ∈ ds, addrByte b = true :=
    fun ds h b hb => addrByte_of_isHexDigit (isHexDigit_of_isDigit (h b hb))
  unfold readIpv4Addr at h
  obtain ⟨⟨a, s₁⟩, h₁, h⟩ := Option.bind_eq_some_iff.mp h
  obtain ⟨t₁, hdot₁, h⟩ := Option.bind_eq_some_iff.mp h
  obtain ⟨⟨b, s₂⟩, h₂, h⟩ := Option.bind_eq_some_iff.mp h
  obtain ⟨t₂, hdot₂, h⟩ := Option.bind_eq_some_iff.mp h
  obtain ⟨⟨c, s₃⟩, h₃, h⟩ := Option.bind_eq_some_iff.mp h
  obtain ⟨t₃, hdot₃, h⟩ := Option.bind_eq_some_iff.mp h
  obtain ⟨⟨d, s₄⟩, h₄, h⟩ := Option.bind_eq_some_iff.mp h
  cases h
  obtain ⟨ds₁, rfl, hne₁, hall₁, -⟩ := readOctet_some h₁
  obtain ⟨ds₂, rfl, -, hall₂, -⟩ := readOctet_some h₂
  obtain ⟨ds₃, rfl, -, hall₃, -⟩ := readOctet_some h₃
  obtain ⟨ds₄, rfl, -, hall₄, -⟩ := readOctet_some h₄
  rw [readGivenChar_some] at hdot₁ hdot₂ hdot₃
  refine ⟨ds₁, ds₂ ++ ascii '.' :: ds₃ ++ ascii '.' :: ds₄, ?_, hne₁, hall₁, ?_⟩
  · rw [hdot₁, hdot₂, hdot₃]
    simp
  · intro b hb
    simp only [List.mem_append, List.mem_cons] at hb
    rcases hb with (hb | rfl | hb) | rfl | hb
    · exact haddr ds₂ hall₂ b hb
    · decide
    · exact haddr ds₃ hall₃ b hb
    · decide
    · exact haddr ds₄ hall₄ b hb

/-- The text that a run of groups takes: bytes of an address, with a colon before every group but
the first; an embedded IPv4 address is two groups. -/
def Text (first : Bool) (s : List UInt8) (out : (List UInt16 × Bool) × List UInt8) : Prop :=
  ∃ u, s = u ++ out.2 ∧ (∀ b ∈ u, addrByte b = true) ∧
    out.1.1.length ≤ colons u + first.toNat + out.1.2.toNat

theorem separator_some {first : Bool} {s t : List UInt8}
    (h : (if first then some s else readGivenChar (ascii ':') s) = some t) :
    ∃ sep, s = sep ++ t ∧ (∀ b ∈ sep, addrByte b = true) ∧ colons sep + first.toNat = 1 := by
  cases first with
  | true =>
    cases h
    exact ⟨[], rfl, by simp, rfl⟩
  | false =>
    rw [if_neg (by decide), readGivenChar_some] at h
    refine ⟨[ascii ':'], h, ?_, rfl⟩
    intro b hb
    rw [List.mem_singleton.mp hb]
    decide

theorem colons_append (s t : List UInt8) : colons (s ++ t) = colons s + colons t :=
  List.count_append ..

theorem readGroups_text (first : Bool) (limit : Nat) (s : List UInt8) :
    Text first s (readGroups first limit s) := by
  induction limit generalizing first s with
  | zero => exact ⟨[], rfl, by simp, by simp [readGroups]⟩
  | succ limit ih =>
    unfold readGroups
    split
    · exact ⟨[], rfl, by simp, by simp⟩
    rename_i t ht
    obtain ⟨sep, rfl, hsep, hcolons⟩ := separator_some ht
    split
    · rename_i hi lo rest hv4
      split at hv4
      · obtain ⟨ds, u, rfl, -, hds, hu⟩ := readIpv4Addr_some hv4
        refine ⟨sep ++ (ds ++ ascii '.' :: u), by simp, ?_, ?_⟩
        · intro b hb
          simp only [List.mem_append, List.mem_cons] at hb
          rcases hb with hb | hb | rfl | hb
          · exact hsep b hb
          · exact addrByte_of_isHexDigit (isHexDigit_of_isDigit (hds b hb))
          · decide
          · exact hu b hb
        · rw [colons_append]
          change 2 ≤ _ + 1
          omega
      · cases hv4
    · split
      · exact ⟨[], rfl, by simp, by simp⟩
      · rename_i g rest hg
        obtain ⟨ds, rfl, -, -, hds, -⟩ := readNumber_some hg
        obtain ⟨u, hrest, hu, hlen⟩ := ih false rest
        refine ⟨sep ++ ds ++ u, ?_, ?_, ?_⟩
        · conv_lhs => rw [hrest]
          simp
        · intro b hb
          simp only [List.mem_append] at hb
          rcases hb with (hb | hb) | hb
          · exact hsep b hb
          · exact addrByte_of_isHexDigit (hds b hb)
          · exact hu b hb
        · rw [colons_append, colons_append]
          change (readGroups false limit rest).1.1.length + 1 ≤ _ + (readGroups false limit rest).1.2.toNat
          rw [Bool.toNat_false] at hlen
          omega

/-- An IPv6 address is written with hex digits, dots and at least two colons. -/
theorem fromStr_text {s : List UInt8} {a : Ipv6Addr} (h : Ipv6Addr.fromStr s = some a) :
    (∀ b ∈ s, addrByte b = true) ∧ 2 ≤ colons s := by
  unfold Ipv6Addr.fromStr at h
  obtain ⟨u, hs, hu, hlen⟩ := readGroups_text true 8 s
  generalize readGroups true 8 s = out at h hs hlen
  obtain ⟨⟨head, v4⟩, t⟩ := out
  simp only at h hs hlen
  split at h
  · rename_i height
    split at h
    · rename_i hend
      rw [hend, List.append_nil] at hs
      rw [hs]
      refine ⟨hu, ?_⟩
      have := v4.toNat_le
      rw [Bool.toNat_true] at hlen
      omega
    · cases h
  · split at h
    · cases h
    · obtain ⟨t₁, hcolon, h⟩ := Option.bind_eq_some_iff.mp h
      obtain ⟨t₂, hcolon₂, h⟩ := Option.bind_eq_some_iff.mp h
      rw [readGivenChar_some] at hcolon hcolon₂
      obtain ⟨w, ht₂, hw, -⟩ := readGroups_text true (8 - (head.length + 1)) t₂
      generalize readGroups true (8 - (head.length + 1)) t₂ = out at h ht₂
      obtain ⟨⟨tail, v4'⟩, r⟩ := out
      simp only at h ht₂
      split at h
      · rename_i hend
        rw [hend, List.append_nil] at ht₂
        rw [hs, hcolon, hcolon₂, ht₂]
        constructor
        · intro b hb
          simp only [List.mem_append, List.mem_cons] at hb
          rcases hb with hb | rfl | rfl | hb
          · exact hu b hb
          · decide
          · decide
          · exact hw b hb
        · rw [colons_append]
          change 2 ≤ _ + List.count _ (ascii ':' :: ascii ':' :: w)
          rw [List.count_cons_self, List.count_cons_self]
          omega
      · cases h

/-- A hex group of at most four digits. -/
structure Group (g : List UInt8) : Prop where
  nonempty : g ≠ []
  short : g.length ≤ 4
  hex : ∀ b ∈ g, isHexDigit b = true

theorem digitsValue_lt {radix : Nat} (hradix : 0 < radix) (ds : List UInt8) :
    digitsValue radix ds < radix ^ ds.length := by
  unfold digitsValue
  induction ds using List.reverseRecOn with
  | nil => simp
  | append_singleton ds b ih =>
    rw [List.foldl_append, List.length_append, List.length_singleton, Nat.pow_succ]
    have hdigit : (toDigit radix b).getD 0 < radix := by
      unfold toDigit
      extract_lets d
      by_cases hd : d < radix
      · rw [if_pos hd]
        exact hd
      · rw [if_neg hd]
        exact hradix
    simp only [List.foldl_cons, List.foldl_nil]
    generalize List.foldl _ 0 ds = v at ih ⊢
    calc v * radix + (toDigit radix b).getD 0 < v * radix + radix := by omega
      _ = (v + 1) * radix := by rw [Nat.add_mul, Nat.one_mul]
      _ ≤ radix ^ ds.length * radix := Nat.mul_le_mul_right _ ih

/-- Digits that end before the rest are read whole. -/
theorem readNumber_group {g rest : List UInt8} (hg : Group g)
    (hrest : ∀ b ∈ rest.head?, isHexDigit b = false) :
    readNumber 16 4 0xffff true (g ++ rest) = some (digitsValue 16 g, rest) := by
  have hrun : (g ++ rest).takeWhile (fun b => (toDigit 16 b).isSome) = g :=
    takeWhile_run hg.hex hrest
  have hlt : digitsValue 16 g < 16 ^ 4 := Nat.lt_of_lt_of_le (digitsValue_lt (by decide) g)
    (Nat.pow_le_pow_right (by decide) hg.short)
  have hshort := hg.short
  unfold readNumber
  simp only [hrun]
  rw [if_neg, if_neg (by simp), if_neg (by omega), List.drop_left]
  · rintro (h | h)
    · exact hg.nonempty h
    · omega

/-- A hex group that no dot follows does not begin an embedded IPv4 address. -/
theorem readIpv4Addr_group {g rest : List UInt8} (hg : Group g)
    (hrest : ∀ b ∈ rest.head?, isHexDigit b = false) (hdot : rest.head? ≠ some (ascii '.')) :
    readIpv4Addr (g ++ rest) = none := by
  cases h : readIpv4Addr (g ++ rest) with
  | none => rfl
  | some out =>
    obtain ⟨ds, u, htext, -, hds, -⟩ := readIpv4Addr_some (v := out.1) (r := out.2) h
    rw [List.append_assoc, List.cons_append] at htext
    obtain ⟨w, hw, hafter⟩ := prefix_of_run htext.symm (fun b hb => isHexDigit_of_isDigit (hds b hb)) hrest
    cases w with
    | nil =>
      rw [List.nil_append] at hafter
      exact absurd (by rw [← hafter]; rfl) hdot
    | cons b w =>
      have hb : isHexDigit b = true := hg.hex b (by simp [hw])
      rw [(List.cons.inj hafter).1.symm] at hb
      exact absurd hb (by decide)

section
variable {limit : Nat} {g rest : List UInt8}

theorem readGroups_group (first : Bool) (hg : Group g)
    (hrest : ∀ b ∈ rest.head?, isHexDigit b = false) (hdot : rest.head? ≠ some (ascii '.')) :
    readGroups first (limit + 1) ((if first then [] else [ascii ':']) ++ (g ++ rest)) =
      ((UInt16.ofNat (digitsValue 16 g) :: (readGroups false limit rest).1.1,
        (readGroups false limit rest).1.2), (readGroups false limit rest).2) := by
  have hsep : (if first then some ((if first then [] else [ascii ':']) ++ (g ++ rest))
      else readGivenChar (ascii ':') ((if first then [] else [ascii ':']) ++ (g ++ rest))) =
      some (g ++ rest) := by
    cases first <;> rfl
  have hv4 : (if 0 < limit then readIpv4Addr (g ++ rest) else none) = none := by
    split
    · exact readIpv4Addr_group hg hrest hdot
    · rfl
  rw [readGroups]
  simp only [hsep, hv4, readNumber_group hg hrest]

theorem colon_stops {rest : List UInt8} : ∀ b ∈ (ascii ':' :: rest).head?, isHexDigit b = false := by
  intro b hb
  cases hb
  decide

/-- Groups between colons are read one after the other. -/
theorem readGroups_chain (gs : List (List UInt8)) (hgs : ∀ g ∈ gs, Group g) :
    readGroups false (limit + gs.length) (gs.flatMap (ascii ':' :: ·) ++ ascii ':' :: rest) =
      ((gs.map (fun g => UInt16.ofNat (digitsValue 16 g)) ++
          (readGroups false limit (ascii ':' :: rest)).1.1,
        (readGroups false limit (ascii ':' :: rest)).1.2),
        (readGroups false limit (ascii ':' :: rest)).2) := by
  induction gs with
  | nil => rfl
  | cons g gs ih =>
    have hg := hgs g List.mem_cons_self
    have hnext : ∃ t, gs.flatMap (ascii ':' :: ·) ++ ascii ':' :: rest = ascii ':' :: t := by
      cases gs with
      | nil => exact ⟨_, rfl⟩
      | cons g gs => exact ⟨_, rfl⟩
    obtain ⟨t, ht⟩ := hnext
    have hstep := @readGroups_group (limit + gs.length) g (ascii ':' :: t) false hg colon_stops
      (by simp [ascii])
    rw [← ht, ih fun g' hg' => hgs g' (List.mem_cons_of_mem g hg')] at hstep
    rw [List.length_cons, ← Nat.add_assoc, List.flatMap_cons, List.map_cons]
    simpa using hstep

end

theorem readGivenChar_none {c : UInt8} {s : List UInt8} (h : s.head? ≠ some c) :
    readGivenChar c s = none := by
  cases hr : readGivenChar c s with
  | none => rfl
  | some r => exact absurd (by rw [readGivenChar_some.mp hr]; rfl) h

/-- Behind a group, only a colon continues the run. -/
theorem readGroups_stuck {limit : Nat} {s : List UInt8} (h : s.head? ≠ some (ascii ':')) :
    readGroups false limit s = (([], false), s) := by
  cases limit with
  | zero => rfl
  | succ limit =>
    rw [readGroups]
    simp [readGivenChar_none h]

/-- Six groups of hex digits alone are no IPv6 address: if they begin one, a colon follows. -/
theorem fromStr_six {g g' rest : List UInt8} {gs : List (List UInt8)} {a : Ipv6Addr} (hg : Group g)
    (hgs : ∀ g ∈ gs, Group g) (hlen : gs.length = 4) (hg' : Group g')
    (hrest : ∀ b ∈ rest.head?, isHexDigit b = false)
    (h : Ipv6Addr.fromStr (g ++ (gs.flatMap (ascii ':' :: ·) ++ ascii ':' :: (g' ++ rest))) = some a) :
    rest.head? = some (ascii ':') := by
  have hcolon : ∃ t, gs.flatMap (ascii ':' :: ·) ++ ascii ':' :: (g' ++ rest) = ascii ':' :: t := by
    cases gs with
    | nil => exact ⟨_, rfl⟩
    | cons g gs => exact ⟨_, rfl⟩
  obtain ⟨t, ht⟩ := hcolon
  have hfirst := @readGroups_group 7 g (ascii ':' :: t) true hg colon_stops (by simp [ascii])
  have hchain := @readGroups_chain 3 (g' ++ rest) gs hgs
  rw [hlen, ht] at hchain
  rw [hchain] at hfirst
  simp only [if_true, List.nil_append] at hfirst
  by_contra hne
  -- What is left of the run is the sixth group, alone or as the start of a dotted tail.
  have hlast : ((readGroups false 3 (ascii ':' :: (g' ++ rest))).1.1.length = 2 ∧
      (readGroups false 3 (ascii ':' :: (g' ++ rest))).1.2 = true) ∨
      ((readGroups false 3 (ascii ':' :: (g' ++ rest))).1.1.length = 1 ∧
        (readGroups false 3 (ascii ':' :: (g' ++ rest))).2 = rest) := by
    rw [readGroups]
    simp only [readGivenChar, if_true, Bool.false_eq_true, if_false, Nat.zero_lt_succ]
    cases readIpv4Addr (g' ++ rest) with
    | some out => exact .inl ⟨rfl, rfl⟩
    | none =>
      simp only [readNumber_group hg' hrest, readGroups_stuck hne]
      exact .inr ⟨rfl, trivial⟩
  unfold Ipv6Addr.fromStr at h
  rw [ht, hfirst] at h
  generalize readGroups false 3 (ascii ':' :: (g' ++ rest)) = out at h hlast
  obtain ⟨⟨tail, v4⟩, r⟩ := out
  simp only at h hlast
  rw [if_neg (by simp only [List.length_cons, List.length_append, List.length_map]; omega)] at h
  rcases hlast with ⟨-, rfl⟩ | ⟨-, rfl⟩
  · cases h
  · split at h
    · cases h
    · rw [readGivenChar_none hne] at h
      cases h

/-- An address that starts with a hex digit starts with a group and a colon. -/
theorem fromStr_first {b : UInt8} {s : List UInt8} {a : Ipv6Addr}
    (h : Ipv6Addr.fromStr (b :: s) = some a) (hb : isHexDigit b = true) :
    ∃ g t, b :: s = g ++ ascii ':' :: t ∧ Group g := by
  have hnot : b ≠ ascii ':' := by
    rintro rfl
    exact absurd hb (by decide)
  unfold Ipv6Addr.fromStr at h
  rw [readGroups] at h
  simp only [if_true, Nat.zero_lt_succ] at h
  cases hv4 : readIpv4Addr (b :: s) with
  | some out =>
    rw [hv4] at h
    cases h
  | none =>
    rw [hv4] at h
    cases hn : readNumber 16 4 0xffff true (b :: s) with
    | none =>
      rw [hn] at h
      obtain ⟨t₂, hcolon, -⟩ := Option.bind_eq_some_iff.mp h
      rw [readGivenChar_some] at hcolon
      exact absurd (List.cons.inj hcolon).1 hnot
    | some out =>
      obtain ⟨n, rest⟩ := out
      obtain ⟨g, hs, hne, hshort, hhex, -⟩ := readNumber_some hn
      by_cases hcolon : rest.head? = some (ascii ':')
      · obtain ⟨t, rfl⟩ := List.head?_eq_some_iff.mp hcolon
        exact ⟨g, t, hs, hne, hshort, hhex⟩
      · rw [hn] at h
        simp only [readGroups_stuck hcolon] at h
        rw [if_neg (by simp), if_neg (by decide), readGivenChar_none hcolon] at h
        cases h

theorem readNumber_none {radix maxDigits max : Nat} {zeros : Bool} {b : UInt8} {s : List UInt8}
    (hb : (toDigit radix b).isSome = false) :
    readNumber radix maxDigits max zeros (b :: s) = none := by
  unfold readNumber
  rw [List.takeWhile_cons_of_neg (by simp [hb])]
  rfl

/-- An address that starts with no hex digit starts with two colons. -/
theorem fromStr_colons {b : UInt8} {s : List UInt8} {a : Ipv6Addr}
    (h : Ipv6Addr.fromStr (b :: s) = some a) (hb : isHexDigit b = false) :
    b = ascii ':' ∧ s.head? = some (ascii ':') := by
  have hdigit : (toDigit 10 b).isSome = false := by
    rw [toDigit_ten]
    by_contra hd
    rw [isHexDigit_of_isDigit (by simpa using hd)] at hb
    cases hb
  have hout : readGroups true 8 (b :: s) = (([], false), b :: s) := by
    have hv4 : readIpv4Addr (b :: s) = none := by
      unfold readIpv4Addr readOctet
      rw [readNumber_none hdigit]
      rfl
    rw [readGroups]
    simp only [if_true, Nat.zero_lt_succ, hv4, readNumber_none (s := s) hb]
  unfold Ipv6Addr.fromStr at h
  rw [hout] at h
  simp only at h
  rw [if_neg (by decide), if_neg (by decide)] at h
  obtain ⟨t₁, ht₁, h⟩ := Option.bind_eq_some_iff.mp h
  obtain ⟨t₂, ht₂, -⟩ := Option.bind_eq_some_iff.mp h
  rw [readGivenChar_some] at ht₁ ht₂
  cases ht₁
  rw [ht₂]
  exact ⟨rfl, rfl⟩

end PktBaffle.Proofs.Lexer
