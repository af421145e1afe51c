import Mathlib

/-! Text as its bytes in UTF-8, and the positions between characters. -/

namespace PktBaffle.Utf8

/-- The bytes of some characters. -/
def encode (cs : List Char) : List UInt8 := cs.flatMap String.utf8EncodeChar

theorem encode_append (cs ds : List Char) : encode (cs ++ ds) = encode cs ++ encode ds :=
  List.flatMap_append

theorem encode_cons (c : Char) (cs : List Char) :
    encode (c :: cs) = String.utf8EncodeChar c ++ encode cs := rfl

theorem toUTF8_eq (s : String) : s.toUTF8.data.toList = encode s.toList := by
  rw [String.toUTF8_eq_toByteArray, ← String.utf8Encode_toList]
  simp [List.utf8Encode, encode]

/-- A byte behind the first one of a character. -/
def Continues (b : UInt8) : Prop := 0x80 ≤ b ∧ b < 0xc0

theorem ofNat_lt_iff {n : Nat} {a : UInt8} (hn : n < 256) : UInt8.ofNat n < a ↔ n < a.toNat := by
  rw [UInt8.lt_iff_toNat_lt, UInt8.toNat_ofNat', Nat.mod_eq_of_lt hn]

theorem le_ofNat_iff {n : Nat} {a : UInt8} (hn : n < 256) : a ≤ UInt8.ofNat n ↔ a.toNat ≤ n := by
  rw [UInt8.le_iff_toNat_le, UInt8.toNat_ofNat', Nat.mod_eq_of_lt hn]

theorem continues_low (v : Nat) : Continues (UInt8.ofNat (v % 0x40 + 0x80)) := by
  have hv : v % 0x40 < 0x40 := Nat.mod_lt _ (by decide)
  exact ⟨(le_ofNat_iff (by omega)).mpr (Nat.le_add_left 0x80 _),
    (ofNat_lt_iff (by omega)).mpr (show _ < 0xc0 by omega)⟩

/-- An ASCII character is one byte. Any other has a first byte that is none, and more bytes that
continue it. -/
theorem encodeChar_cases (c : Char) :
    (c.toNat < 0x80 ∧ String.utf8EncodeChar c = [UInt8.ofNat c.toNat]) ∨
    (0x80 ≤ c.toNat ∧ ∃ a rest, String.utf8EncodeChar c = a :: rest ∧ 0xc0 ≤ a ∧
      ∀ b ∈ rest, Continues b) := by
  unfold String.utf8EncodeChar
  change (c.toNat < 0x80 ∧ (if c.toNat ≤ 0x7f then _ else _) = _) ∨ _
  by_cases h₁ : c.toNat ≤ 0x7f
  · exact .inl ⟨by omega, if_pos h₁⟩
  · refine .inr ⟨by omega, ?_⟩
    change ∃ a rest, (if c.toNat ≤ 0x7f then _ else if c.toNat ≤ 0x7ff then _ else
      if c.toNat ≤ 0xffff then _ else _) = a :: rest ∧ _
    rw [if_neg h₁]
    by_cases h₂ : c.toNat ≤ 0x7ff
    · rw [if_pos h₂]
      refine ⟨_, _, rfl, (le_ofNat_iff (by omega)).mpr (show 0xc0 ≤ _ by omega), ?_⟩
      simp only [List.mem_cons, List.not_mem_nil, or_false, forall_eq]
      exact continues_low _
    · rw [if_neg h₂]
      by_cases h₃ : c.toNat ≤ 0xffff
      · rw [if_pos h₃]
        refine ⟨_, _, rfl, (le_ofNat_iff (by omega)).mpr (show 0xc0 ≤ _ by omega), ?_⟩
        simp only [List.mem_cons, List.not_mem_nil, or_false, forall_eq_or_imp, forall_eq]
        exact ⟨continues_low _, continues_low _⟩
      · rw [if_neg h₃]
        refine ⟨_, _, rfl, (le_ofNat_iff (by omega)).mpr (show 0xc0 ≤ _ by omega), ?_⟩
        simp only [List.mem_cons, List.not_mem_nil, or_false, forall_eq_or_imp, forall_eq]
        exact ⟨continues_low _, continues_low _, continues_low _⟩

theorem encodeChar_ne_nil (c : Char) : String.utf8EncodeChar c ≠ [] := by
  rcases encodeChar_cases c with ⟨-, h⟩ | ⟨-, a, rest, h, -⟩ <;> simp [h]

/-- The position stands between two characters, or at an end. -/
def Boundary (cs : List Char) (pos : Nat) : Prop :=
  ∃ pre post, cs = pre ++ post ∧ pos = (encode pre).length

section

variable {cs : List Char} {pos : Nat} {b : UInt8}

theorem Boundary.zero : Boundary cs 0 := ⟨[], cs, rfl, rfl⟩

theorem Boundary.end : Boundary cs (encode cs).length := ⟨cs, [], (List.append_nil cs).symm, rfl⟩

theorem Boundary.le (h : Boundary cs pos) : pos ≤ (encode cs).length := by
  obtain ⟨pre, post, rfl, rfl⟩ := h
  rw [encode_append, List.length_append]
  exact Nat.le_add_right _ _

/-- The character that starts at `pos`. -/
def CharAt (cs : List Char) (pos : Nat) (c : Char) : Prop :=
  ∃ pre post, cs = pre ++ c :: post ∧ pos = (encode pre).length

/-- A byte at a boundary is the first one of a character. -/
theorem Boundary.charAt (h : Boundary cs pos) (hb : (encode cs)[pos]? = some b) :
    ∃ c, CharAt cs pos c ∧ (String.utf8EncodeChar c).head? = some b := by
  obtain ⟨pre, post, rfl, rfl⟩ := h
  rw [encode_append, List.getElem?_append_right (Nat.le_refl _), Nat.sub_self] at hb
  cases post with
  | nil => cases hb
  | cons c post =>
    refine ⟨c, ⟨pre, post, rfl, rfl⟩, ?_⟩
    rw [encode_cons, ← List.head?_eq_getElem?, List.head?_append_of_ne_nil _
      (encodeChar_ne_nil c)] at hb
    exact hb

theorem Boundary.starts (h : Boundary cs pos) (hb : (encode cs)[pos]? = some b) :
    b < 0x80 ∨ 0xc0 ≤ b := by
  obtain ⟨c, -, hc⟩ := h.charAt hb
  rcases encodeChar_cases c with ⟨hlt, he⟩ | ⟨-, a, rest, he, ha, -⟩
  · rw [he] at hc
    cases hc
    exact .inl ((ofNat_lt_iff (by omega)).mpr hlt)
  · rw [he] at hc
    cases hc
    exact .inr ha

/-- An ASCII byte is a character by itself, at a boundary and wherever it stands. -/
theorem Boundary.ascii (h : Boundary cs pos) (hb : (encode cs)[pos]? = some b)
    (hascii : b < 0x80) : ∃ c, CharAt cs pos c ∧ c.toNat = b.toNat ∧ Boundary cs (pos + 1) := by
  obtain ⟨c, hat, hc⟩ := h.charAt hb
  rcases encodeChar_cases c with ⟨hlt, he⟩ | ⟨-, a, rest, he, ha, -⟩
  · rw [he] at hc
    cases hc
    refine ⟨c, hat, ?_, ?_⟩
    · rw [UInt8.toNat_ofNat', Nat.mod_eq_of_lt (by omega)]
    · obtain ⟨pre, post, rfl, rfl⟩ := hat
      refine ⟨pre ++ [c], post, by simp, ?_⟩
      rw [encode_append, List.length_append, encode_cons, he]
      rfl
  · rw [he] at hc
    cases hc
    exact absurd hascii (UInt8.not_lt.mpr (UInt8.le_trans (by decide) ha))

/-- Behind a run of ASCII bytes stands a boundary. -/
theorem Boundary.run (h : Boundary cs pos) (n : Nat)
    (hn : ∀ i < n, ∃ b, (encode cs)[pos + i]? = some b ∧ b < 0x80) : Boundary cs (pos + n) := by
  induction n with
  | zero => exact h
  | succ n ih =>
    obtain ⟨b, hb, hascii⟩ := hn n (Nat.lt_succ_self n)
    obtain ⟨c, -, -, hnext⟩ := (ih fun i hi => hn i (Nat.lt_succ_of_lt hi)).ascii hb hascii
    exact hnext

end

end PktBaffle.Utf8
