import PktBaffle.Proofs.Lexer.Turns

namespace PktBaffle.Proofs.Lexer
open PktBaffle.Lexer

/-! ### Bytes -/

/-- A byte is its two nibbles, so a statement about every byte is checked in sixteen rows. -/
theorem forall_byte {P : UInt8 → Prop}
    (h : ∀ hi < 16, ∀ lo < 16, P (UInt8.ofNat (16 * hi + lo))) (b : UInt8) : P b := by
  have hlt := b.toNat_lt
  have := h (b.toNat / 16) (by omega) (b.toNat % 16) (by omega)
  rwa [Nat.div_add_mod, UInt8.ofNat_toNat] at this

/-- A byte that is no blank, and that no operator or bracket starts with. -/
def Starts (b : UInt8) : Bool :=
  !isWhitespace b && pairTokens.all (fun e => e.1.1 != b) && singleTokens.all (fun e => e.1 != b)

theorem lookup_none {α β : Type} [BEq α] [LawfulBEq α] {table : List (α × β)} {a : α}
    (h : table.all (fun e => e.1 != a) = true) : table.lookup a = none := by
  induction table with
  | nil => rfl
  | cons e table ih =>
    rw [List.all_cons, Bool.and_eq_true] at h
    have hne : (a == e.1) = false := by
      have := h.1
      rw [bne_iff_ne] at this
      exact beq_eq_false_iff_ne.mpr (Ne.symm this)
    rw [List.lookup_cons, hne]
    exact ih h.2

theorem pair_none {b c : UInt8} (h : pairTokens.all (fun e => e.1.1 != b) = true) :
    pairTokens.lookup (b, c) = none := by
  refine lookup_none (List.all_eq_true.mpr fun e he => ?_)
  have := List.all_eq_true.mp h e he
  rw [bne_iff_ne] at this ⊢
  exact fun heq => this (by rw [heq])

section
variable {src : List UInt8} {pos : Nat} {b : UInt8}

/-- Where neither a blank nor an operator stands, the first byte picks the scanner. -/
theorem lexStep_starts (hb : src[pos]? = some b) (h : Starts b = true) : lexStep src pos =
    if b = ascii ':' then lexColon src pos
    else if b = ascii '0' ∧ (src[pos + 1]? = some (ascii 'x') ∨
        src[pos + 1]? = some (ascii 'X')) then lexHex src pos
    else if isDigit b then lexDigit src pos
    else if isAlpha b ∨ b = ascii '_' then lexWord src pos
    else slice src pos src.length >>= fun rest =>
      .error (.lexError pos ((firstChar rest).getD '?')) := by
  unfold Starts at h
  simp only [Bool.and_eq_true, Bool.not_eq_true'] at h
  obtain ⟨⟨hblank, hpair⟩, hsingle⟩ := h
  have hstep : byteAt src pos = .ok b := by simp [byteAt, hb]
  have hnone : (src[pos + 1]?).bind (fun c => pairTokens.lookup (b, c)) = none := by
    cases src[pos + 1]? with
    | none => rfl
    | some c => exact pair_none hpair
  unfold lexStep
  rw [hstep]
  change (if isWhitespace b then _ else _) = _
  rw [hblank, hnone, lookup_none hsingle]
  rfl

theorem starts_digit : isDigit b = true → Starts b = true :=
  forall_byte (P := fun b => isDigit b = true → Starts b = true) (by decide) b

theorem starts_alpha : isAlpha b = true → Starts b = true :=
  forall_byte (P := fun b => isAlpha b = true → Starts b = true) (by decide) b

theorem lexStep_colon (hb : src[pos]? = some (ascii ':')) : lexStep src pos = lexColon src pos := by
  rw [lexStep_starts hb (by decide), if_pos rfl]

theorem lexStep_digit (hb : src[pos]? = some b) (hdigit : isDigit b = true)
    (hx : src[pos + 1]? ≠ some (ascii 'x')) (hX : src[pos + 1]? ≠ some (ascii 'X')) :
    lexStep src pos = lexDigit src pos := by
  have hcolon : b ≠ ascii ':' := by
    rintro rfl
    revert hdigit
    decide
  rw [lexStep_starts hb (starts_digit hdigit), if_neg hcolon, if_neg, if_pos hdigit]
  rintro ⟨-, h | h⟩
  · exact hx h
  · exact hX h

theorem lexStep_alpha (hb : src[pos]? = some b) (halpha : isAlpha b = true) :
    lexStep src pos = lexWord src pos := by
  have hclass := forall_byte
    (P := fun b => isAlpha b = true → b ≠ ascii ':' ∧ b ≠ ascii '0' ∧ ¬ isDigit b = true)
    (by decide) b halpha
  rw [lexStep_starts hb (starts_alpha halpha), if_neg hclass.1, if_neg fun h => hclass.2.1 h.1,
    if_neg hclass.2.2, if_pos (Or.inl halpha)]

end

/-! ### Runs of bytes -/

/-- What an address literal may be followed by: nothing, a blank, a `)` or a `/`. -/
def Stops (rest : List UInt8) : Prop :=
  ∀ b ∈ rest.head?, b = ascii ' ' ∨ b = ascii ')' ∨ b = ascii '/'

theorem Stops.not {p : UInt8 → Bool} {rest : List UInt8} (h : Stops rest)
    (hp : p (ascii ' ') = false ∧ p (ascii ')') = false ∧ p (ascii '/') = false) :
    ∀ b ∈ rest.head?, p b = false := by
  intro b hb
  rcases h b hb with rfl | rfl | rfl
  · exact hp.1
  · exact hp.2.1
  · exact hp.2.2

section
variable {p : UInt8 → Bool} {s t rest : List UInt8}

theorem takeWhile_run (hs : ∀ b ∈ s, p b = true) (hrest : ∀ b ∈ rest.head?, p b = false) :
    (s ++ rest).takeWhile p = s := by
  rw [List.takeWhile_append_of_pos hs]
  cases rest with
  | nil => simp
  | cons b rest => simp [hrest b rfl]

theorem takeWhile_split (p : UInt8 → Bool) (s : List UInt8) :
    s = s.takeWhile p ++ s.drop (s.takeWhile p).length ∧ (∀ b ∈ s.takeWhile p, p b = true) ∧
      ∀ b ∈ (s.drop (s.takeWhile p).length).head?, p b = false := by
  induction s with
  | nil => simp
  | cons a s ih =>
    by_cases ha : p a = true
    · rw [List.takeWhile_cons_of_pos ha, List.length_cons, List.drop_succ_cons, List.cons_append,
        ← ih.1]
      refine ⟨rfl, fun b hb => ?_, ih.2.2⟩
      rcases List.mem_cons.mp hb with rfl | hb
      · exact ha
      · exact ih.2.1 b hb
    · rw [List.takeWhile_cons_of_neg ha]
      refine ⟨rfl, by simp, fun b hb => ?_⟩
      cases hb
      simpa using ha

/-- A scan from inside a run ends with it. -/
theorem scan_run (hs : ∀ b ∈ t, p b = true) (hrest : ∀ b ∈ rest.head?, p b = false) :
    scan p (s ++ t ++ rest) s.length = (s ++ t).length := by
  unfold scan
  rw [List.append_assoc, List.drop_left, takeWhile_run hs hrest, List.length_append]

/-- What follows starts a character, so the text is a slice. -/
theorem slice_starts (h : ∀ b ∈ rest.head?, b < 0x80 ∨ 0xc0 ≤ b) :
    slice (s ++ rest) 0 s.length = .ok s := by
  have hend : isCharBoundary (s ++ rest) s.length = true := by
    unfold isCharBoundary
    cases rest with
    | nil => simp
    | cons b rest => simp [h b rfl]
  unfold slice
  rw [hend, if_pos]
  · simp
  · refine ⟨Nat.zero_le _, ?_, rfl, rfl⟩
    simp

theorem slice_ascii (h : ∀ b ∈ rest.head?, b < 0x80) : slice (s ++ rest) 0 s.length = .ok s :=
  slice_starts fun b hb => .inl (h b hb)

theorem slice_run (h : Stops rest) : slice (s ++ rest) 0 s.length = .ok s := by
  refine slice_ascii fun b hb => ?_
  rcases h b hb with rfl | rfl | rfl <;> decide

/-- A part that the rest cannot continue lies inside the text before it. -/
theorem prefix_of_run {u v : List UInt8} (h : u ++ v = s ++ rest) (hu : ∀ b ∈ u, p b = true)
    (hrest : ∀ b ∈ rest.head?, p b = false) : ∃ w, s = u ++ w ∧ v = w ++ rest := by
  rcases List.append_eq_append_iff.mp h with ⟨w, hs, hv⟩ | ⟨w, hu', hrest'⟩
  · exact ⟨w, hs, hv⟩
  · cases w with
    | nil => exact ⟨[], by simpa using hu'.symm, by simpa using hrest'.symm⟩
    | cons b w =>
      have hb : p b = true := hu b (by simp [hu'])
      rw [hrest b (by simp [hrest'])] at hb
      cases hb

end

/-- The bytes of a filter. -/
def utf8 (src : String) : List UInt8 := src.toUTF8.data.toList

theorem utf8_append (s t : String) : utf8 (s ++ t) = utf8 s ++ utf8 t := by
  unfold utf8
  rw [String.toUTF8_eq_toByteArray, String.toUTF8_eq_toByteArray, String.toUTF8_eq_toByteArray,
    String.toByteArray_append, ByteArray.data_append, Array.toList_append]

end PktBaffle.Proofs.Lexer
