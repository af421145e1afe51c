import PktBaffle.Proofs.Lexer.Tokens

namespace PktBaffle.Proofs.Lexer
open PktBaffle.Lexer

/-! ### A turn depends only on what is left of the source -/

def shift (d : Nat) (t : Spanned) : Spanned := { t with offset := t.offset + d }

/-- A turn taken on what is left of the source from `d` on, seen from the whole of it. -/
def moved (d : Nat) (turn : Turn) : Turn := (turn.1.map (shift d), turn.2 + d)

theorem toOption_bind {α β : Type} (m : Except Error α) (f : α → Except Error β) :
    (m >>= f).toOption = m.toOption.bind fun a => (f a).toOption := by
  cases m <;> rfl

theorem toOption_pure {α : Type} (a : α) : (pure a : Except Error α).toOption = some a := rfl

section
variable {src : List UInt8} {d : Nat}

theorem scan_drop (p : UInt8 → Bool) (k : Nat) :
    scan p src (k + d) = scan p (src.drop d) k + d := by
  unfold scan
  rw [List.drop_drop, Nat.add_comm d k]
  omega

theorem boundary_drop (hd : d < src.length) {k : Nat} (hk : 0 < k) :
    isCharBoundary src (k + d) = isCharBoundary (src.drop d) k := by
  unfold isCharBoundary
  have hzero : (k + d == 0) = (k == 0) := by
    rw [Bool.eq_iff_iff]
    simp only [beq_iff_eq]
    omega
  have hend : (k + d == src.length) = (k == (src.drop d).length) := by
    rw [Bool.eq_iff_iff, List.length_drop]
    simp only [beq_iff_eq]
    omega
  rw [hzero, hend, List.getElem?_drop, Nat.add_comm d k]

/-- An ASCII byte starts a character. -/
theorem boundary_ascii {b : UInt8} (hb : src[d]? = some b) (hascii : b < 0x80) :
    isCharBoundary src d = true := by
  unfold isCharBoundary
  simp [hb, hascii]

theorem slice_drop {b : UInt8} (hb : src[d]? = some b) (hascii : b < 0x80) {k : Nat} (hk : 0 < k) :
    (slice src d (k + d)).toOption = (slice (src.drop d) 0 k).toOption := by
  have hd : d < src.length := (List.getElem?_eq_some_iff.mp hb).1
  have hstart : isCharBoundary (src.drop d) 0 = true := rfl
  unfold slice
  rw [boundary_ascii hb hascii, boundary_drop hd hk, hstart, List.length_drop, List.drop_zero,
    Nat.add_sub_cancel, Nat.sub_zero]
  by_cases hle : k + d ≤ src.length
  · have hle' : k ≤ src.length - d := by omega
    simp only [hle, hle', Nat.le_add_left, Nat.zero_le, true_and]
  · have hle' : ¬ k ≤ src.length - d := by omega
    simp only [hle, hle', false_and, and_false, if_false]

/-- The bytes of an address in colon notation. -/
def addrByte (b : UInt8) : Bool := isHexDigit b || b == ascii ':' || b == ascii '.'

theorem le_scan (p : UInt8 → Bool) (src : List UInt8) (k : Nat) : k ≤ scan p src k :=
  Nat.le_add_right _ _

/-- A scan takes at least the byte it starts on, if that one belongs. -/
theorem lt_scan {p : UInt8 → Bool} {src : List UInt8} {k : Nat} {b : UInt8} (hb : src[k]? = some b)
    (hp : p b = true) : k < scan p src k := by
  obtain ⟨hk, rfl⟩ := List.getElem?_eq_some_iff.mp hb
  unfold scan
  rw [List.drop_eq_getElem_cons hk, List.takeWhile_cons, if_pos hp, List.length_cons]
  omega

theorem lexIpv6_eq (accepts : List UInt8 → Bool) (src : List UInt8) (start pos : Nat) :
    lexIpv6 accepts src start pos = (do
      let candidate ← slice src start (scan addrByte src pos)
      return (if accepts candidate then Ipv6Addr.fromStr candidate else none).map fun addr =>
        (some ⟨.ipv6 addr, start⟩, scan addrByte src pos)) := rfl

theorem lexIpv6_drop (accepts : List UInt8 → Bool) {b : UInt8} (hb : src[d]? = some b)
    (hascii : b < 0x80) {k : Nat} (hk : 0 < scan addrByte (src.drop d) k) :
    (lexIpv6 accepts src d (k + d)).toOption =
      (lexIpv6 accepts (src.drop d) 0 k).toOption.map (Option.map (moved d)) := by
  rw [lexIpv6_eq, lexIpv6_eq]
  simp only [toOption_bind, toOption_pure, scan_drop]
  rw [slice_drop hb hascii hk]
  cases (slice (src.drop d) 0 (scan addrByte (src.drop d) k)).toOption with
  | none => rfl
  | some candidate =>
    simp only [Option.bind_some, Option.map_some, Option.map_map]
    congr 2
    funext addr
    simp [moved, shift]

theorem getElem?_zero_drop : (src.drop d)[0]? = src[d]? := by
  rw [List.getElem?_drop, Nat.add_zero]

theorem lexColon_eq (src : List UInt8) (pos : Nat) : lexColon src pos =
    ((if src[pos + 1]? = some (ascii ':') then lexIpv6 (fun _ => true) src pos pos
      else pure none) >>= fun addr => pure (addr.getD (some ⟨.colon, pos⟩, pos + 1))) := by
  unfold lexColon
  split <;> rfl

theorem lexColon_drop (hb : src[d]? = some (ascii ':')) :
    (lexColon src d).toOption = (lexColon (src.drop d) 0).toOption.map (moved d) := by
  have hscan : 0 < scan addrByte (src.drop d) 0 := lt_scan (getElem?_zero_drop.trans hb) (by decide)
  have haddr := lexIpv6_drop (fun _ => true) hb (by decide) hscan
  rw [Nat.zero_add] at haddr
  unfold lexColon
  rw [List.getElem?_drop]
  by_cases hnext : src[d + 1]? = some (ascii ':')
  · simp only [Nat.zero_add, hnext, if_true, toOption_bind, toOption_pure, haddr]
    cases (lexIpv6 (fun _ => true) (src.drop d) 0 0).toOption with
    | none => rfl
    | some addr =>
      cases addr with
      | none => simp [moved, shift, Nat.add_comm]
      | some turn => rfl
  · simp only [Nat.zero_add, hnext, if_false, toOption_bind, toOption_pure]
    simp [moved, shift, Nat.add_comm]

/-- The error of a number speaks of its offset, but not whether there is one. -/
theorem parseInt_offset (raw : List UInt8) (o o' : Nat) :
    (parseInt raw o).toOption = (parseInt raw o').toOption := by
  have hdigits : ∀ radix digits n, (parseDigits (invalidNumber raw o) radix digits n).toOption =
      (parseDigits (invalidNumber raw o') radix digits n).toOption := by
    intro radix digits
    induction digits with
    | nil => intro n; rfl
    | cons c rest ih =>
      intro n
      unfold parseDigits
      split
      · rfl
      · split
        · rfl
        · exact ih _
  unfold parseInt
  simp only
  split
  · rfl
  · rw [toOption_bind, toOption_bind, hdigits]

theorem parseNumlike_offset (raw : List UInt8) (o o' : Nat) :
    (parseNumlike raw o).toOption = (parseNumlike raw o').toOption := by
  unfold parseNumlike
  split
  · unfold parseIpv4
    simp only
    split <;> rfl
  · split
    · rfl
    · split
      · rfl
      · rw [toOption_bind, toOption_bind, parseInt_offset raw o o']

theorem lexHex_drop (hb : src[d]? = some (ascii '0')) :
    (lexHex src d).toOption = (lexHex (src.drop d) 0).toOption.map (moved d) := by
  have hscan : 0 < scan isHexDigit (src.drop d) 2 := Nat.lt_of_lt_of_le (by decide) (le_scan _ _ _)
  unfold lexHex
  simp only [toOption_bind, toOption_pure, Nat.zero_add]
  rw [Nat.add_comm d 2, scan_drop, slice_drop hb (by decide) hscan]
  cases (slice (src.drop d) 0 (scan isHexDigit (src.drop d) 2)).toOption with
  | none => rfl
  | some raw =>
    simp only [Option.bind_some]
    rw [parseInt_offset raw d 0]
    cases (parseInt raw 0).toOption with
    | none => rfl
    | some n => simp [moved, shift]

theorem macGroups_drop (n k : Nat) :
    macGroups src n (k + d) = (macGroups (src.drop d) n k).map (· + d) := by
  induction n generalizing k with
  | zero => rfl
  | succ n ih =>
    unfold macGroups
    simp only [List.getElem?_drop, Nat.add_comm d k, Nat.add_right_comm k d 1, scan_drop, ih]
    split
    · split
      · rw [if_pos (by omega)]
        rfl
      · rw [if_neg (by omega)]
    · rfl

theorem le_macGroups {src : List UInt8} {n k tmp : Nat} (h : macGroups src n k = some tmp) :
    k ≤ tmp := by
  induction n generalizing k with
  | zero => exact Nat.le_of_eq (Option.some.inj h)
  | succ n ih =>
    unfold macGroups at h
    simp only at h
    split at h
    · split at h
      · cases h
      · have hle := ih h
        have := le_scan isHexDigit src (k + 1)
        omega
    · cases h

theorem lexMac_drop {b : UInt8} (hb : src[d]? = some b) (hascii : b < 0x80) {k : Nat} (hk : 0 < k) :
    (lexMac src d (k + d)).toOption =
      (lexMac (src.drop d) 0 k).toOption.map (Option.map (moved d)) := by
  unfold lexMac
  rw [macGroups_drop]
  cases htmp : macGroups (src.drop d) 5 k with
  | none => rfl
  | some tmp =>
    have hle := le_macGroups htmp
    simp only [Option.map_some, List.getElem?_drop, Nat.add_comm d tmp]
    split
    · rfl
    · simp only [toOption_bind, toOption_pure]
      rw [slice_drop hb hascii (by omega)]
      cases (slice (src.drop d) 0 tmp).toOption with
      | none => rfl
      | some candidate =>
        simp only [Option.bind_some, Option.map_some, Option.map_map]
        congr 2
        funext mac
        simp [moved, shift]

/-- The bytes of a number or a dotted address. -/
def numByte (b : UInt8) : Bool := isAlnum b || b == ascii '.'

/-- What is tried on a digit when a colon follows its run: a MAC address, then an IPv6 one. -/
def extend (src : List UInt8) (start pos : Nat) : Except Error (Option Turn) :=
  if src[pos]? = some (ascii ':') then do
    match ← lexMac src start pos with
    | some turn => return some turn
    | none => lexIpv6 looksLikeIpv6 src start pos
  else return none

theorem lexDigit_eq (src : List UInt8) (start : Nat) : lexDigit src start = (do
    match ← extend src start (scan numByte src start) with
    | some turn => return turn
    | none =>
      let tok ← parseNumlike (← slice src start (scan numByte src start)) start
      return (some ⟨tok, start⟩, scan numByte src start)) := by
  unfold lexDigit extend
  change (if src[scan numByte src start]? = some (ascii ':') then _ else _) = _
  split
  · rename_i hcolon
    cases hmac : lexMac src start (scan numByte src start) with
    | error e =>
      change (lexMac src start (scan numByte src start) >>= _) = _
      rw [hmac]
      rfl
    | ok mac =>
      change (lexMac src start (scan numByte src start) >>= _) = _
      rw [hmac]
      cases mac with
      | some turn => rfl
      | none =>
        change (if src[scan numByte src start]? = some (ascii ':') then _ else _) = _
        rw [if_pos hcolon]
        rfl
  · rename_i hcolon
    change (if src[scan numByte src start]? = some (ascii ':') then _ else _) = _
    rw [if_neg hcolon]
    rfl

theorem extend_drop {b : UInt8} (hb : src[d]? = some b) (hascii : b < 0x80) {k : Nat} (hk : 0 < k) :
    (extend src d (k + d)).toOption =
      (extend (src.drop d) 0 k).toOption.map (Option.map (moved d)) := by
  have hscan : 0 < scan addrByte (src.drop d) k := Nat.lt_of_lt_of_le hk (le_scan _ _ _)
  unfold extend
  rw [List.getElem?_drop, Nat.add_comm d k]
  split
  · rw [toOption_bind, toOption_bind, lexMac_drop hb hascii hk]
    cases (lexMac (src.drop d) 0 k).toOption with
    | none => rfl
    | some mac =>
      cases mac with
      | some turn => rfl
      | none => exact lexIpv6_drop looksLikeIpv6 hb hascii hscan
  · rfl

theorem lexDigit_drop {b : UInt8} (hb : src[d]? = some b) (hascii : b < 0x80)
    (hnum : numByte b = true) :
    (lexDigit src d).toOption = (lexDigit (src.drop d) 0).toOption.map (moved d) := by
  have hscan : 0 < scan numByte (src.drop d) 0 := lt_scan (getElem?_zero_drop.trans hb) hnum
  have hpos : scan numByte src d = scan numByte (src.drop d) 0 + d := by
    rw [← scan_drop, Nat.zero_add]
  rw [lexDigit_eq, lexDigit_eq, hpos, toOption_bind, toOption_bind, extend_drop hb hascii hscan]
  cases (extend (src.drop d) 0 (scan numByte (src.drop d) 0)).toOption with
  | none => rfl
  | some turn =>
    cases turn with
    | some turn => rfl
    | none =>
      simp only [Option.map_some, Option.map_none, Option.bind_some, toOption_bind, toOption_pure]
      rw [slice_drop hb hascii hscan]
      cases (slice (src.drop d) 0 (scan numByte (src.drop d) 0)).toOption with
      | none => rfl
      | some raw =>
        simp only [Option.bind_some]
        rw [parseNumlike_offset raw d 0]
        cases (parseNumlike raw 0).toOption with
        | none => rfl
        | some tok => simp [moved, shift]

theorem lexWord_drop {b : UInt8} (hb : src[d]? = some b) (hascii : b < 0x80)
    (hword : 0 < wordLen (src.drop d)) :
    (lexWord src d).toOption = (lexWord (src.drop d) 0).toOption.map (moved d) := by
  unfold lexWord
  simp only [List.drop_zero, Nat.zero_add, toOption_bind]
  rw [Nat.add_comm d, slice_drop hb hascii hword]
  cases (slice (src.drop d) 0 (wordLen (src.drop d))).toOption with
  | none => rfl
  | some word =>
    simp only [Option.bind_some]
    split
    · simp [toOption_pure, moved, shift]
    · split
      · simp [toOption_pure, moved, shift]
      · simp [toOption_pure, moved, shift]

theorem isDigit_le {b : UInt8} (h : isDigit b = true) : 48 ≤ b.toNat ∧ b.toNat ≤ 57 := by
  simpa [isDigit, ascii, UInt8.le_iff_toNat_le] using h

theorem isAlpha_le {b : UInt8} (h : isAlpha b = true) :
    (97 ≤ b.toNat ∧ b.toNat ≤ 122) ∨ (65 ≤ b.toNat ∧ b.toNat ≤ 90) := by
  simpa [isAlpha, ascii, UInt8.le_iff_toNat_le] using h

theorem numByte_of_isDigit {b : UInt8} (h : isDigit b = true) : numByte b = true := by
  simp [numByte, isAlnum, h]

/-- The bytes a word may start with. -/
def wordStart (b : UInt8) : Prop := isAlpha b = true ∨ b = ascii '_'

theorem wordLen_pos {b : UInt8} {bs : List UInt8} (hb : bs[0]? = some b) (h : wordStart b) :
    0 < wordLen bs := by
  cases bs with
  | nil => cases hb
  | cons a rest =>
    cases hb
    unfold wordLen
    rw [if_pos]
    · omega
    · rcases h with h | h
      · simp [isAlnum, h]
      · simp [h]

theorem wordStart_ascii {b : UInt8} (h : wordStart b) : b < 0x80 := by
  rw [UInt8.lt_iff_toNat_lt]
  change b.toNat < 128
  rcases h with h | rfl
  · have := isAlpha_le h
    omega
  · decide

theorem lexStep_drop (hd : d < src.length) :
    (lexStep src d).toOption = (lexStep (src.drop d) 0).toOption.map (moved d) := by
  have hb : src[d]? = some src[d] := List.getElem?_eq_getElem hd
  generalize src[d] = b at hb
  have hnext : (src.drop d)[0 + 1]? = src[d + 1]? := List.getElem?_drop
  have hstep : byteAt src d = .ok b := by simp [byteAt, hb]
  have hstep' : byteAt (src.drop d) 0 = .ok b := by simp [byteAt, hb]
  unfold lexStep
  rw [toOption_bind, toOption_bind, hstep, hstep', hnext]
  change Except.toOption (if isWhitespace b then _ else _) = Option.map (moved d)
    (Except.toOption (if isWhitespace b then _ else _))
  split
  · simp [toOption_pure, moved, Nat.add_comm]
  split
  · simp [toOption_pure, moved, shift, Nat.add_comm]
  split
  · simp [toOption_pure, moved, shift, Nat.add_comm]
  split
  · rename_i hcolon
    exact lexColon_drop (hcolon ▸ hb)
  split
  · rename_i hhex
    exact lexHex_drop (hhex.1 ▸ hb)
  split
  · rename_i hdigit
    refine lexDigit_drop hb ?_ (numByte_of_isDigit hdigit)
    have := isDigit_le hdigit
    rw [UInt8.lt_iff_toNat_lt]
    change b.toNat < 128
    omega
  split
  · rename_i hword
    exact lexWord_drop hb (wordStart_ascii hword) (wordLen_pos (getElem?_zero_drop.trans hb) hword)
  · rw [toOption_bind, toOption_bind]
    cases (slice src d src.length).toOption <;>
      cases (slice (src.drop d) 0 (src.drop d).length).toOption <;> rfl

end

/-! ### Every turn goes forward -/

section
variable {src : List UInt8} {turn : Turn}

theorem bind_eq_ok {α β : Type} {m : Except Error α} {f : α → Except Error β} {b : β}
    (h : (m >>= f) = .ok b) : ∃ a, m = .ok a ∧ f a = .ok b := by
  cases m with
  | error e => cases h
  | ok a => exact ⟨a, rfl, h⟩

theorem lexIpv6_forward {accepts : List UInt8 → Bool} {start pos : Nat}
    (h : lexIpv6 accepts src start pos = .ok (some turn)) : turn.2 = scan addrByte src pos := by
  rw [lexIpv6_eq] at h
  obtain ⟨candidate, -, h⟩ := bind_eq_ok h
  obtain ⟨addr, -, rfl⟩ := Option.map_eq_some_iff.mp (Except.ok.inj h)
  rfl

theorem lexMac_forward {start pos : Nat} (h : lexMac src start pos = .ok (some turn)) :
    pos ≤ turn.2 := by
  unfold lexMac at h
  split at h
  · cases h
  · rename_i tmp htmp
    split at h
    · cases h
    · obtain ⟨candidate, -, h⟩ := bind_eq_ok h
      obtain ⟨mac, -, rfl⟩ := Option.map_eq_some_iff.mp (Except.ok.inj h)
      exact le_macGroups htmp

theorem extend_forward {start pos : Nat} (h : extend src start pos = .ok (some turn)) :
    pos ≤ turn.2 := by
  unfold extend at h
  split at h
  · obtain ⟨mac, hmac, h⟩ := bind_eq_ok h
    cases mac with
    | some t =>
      cases h
      exact lexMac_forward hmac
    | none =>
      rw [lexIpv6_forward h]
      exact le_scan _ _ _
  · cases h

theorem lexStep_forward {pos : Nat} (h : lexStep src pos = .ok turn) : pos < turn.2 := by
  unfold lexStep at h
  obtain ⟨b, hbyte, h⟩ := bind_eq_ok h
  have hb : src[pos]? = some b := by
    unfold byteAt at hbyte
    split at hbyte
    · cases hbyte
      assumption
    · cases hbyte
  split at h
  · cases h
    exact Nat.lt_succ_self pos
  split at h
  · cases h
    exact Nat.lt_succ_of_lt (Nat.lt_succ_self pos)
  split at h
  · cases h
    exact Nat.lt_succ_self pos
  split at h
  · rename_i hcolon
    rw [lexColon_eq] at h
    obtain ⟨addr, haddr, h⟩ := bind_eq_ok h
    cases addr with
    | none =>
      cases h
      exact Nat.lt_succ_self pos
    | some t =>
      cases h
      split at haddr
      · rw [Option.getD_some, lexIpv6_forward haddr]
        exact lt_scan hb (hcolon ▸ by decide)
      · cases haddr
  split at h
  · obtain ⟨raw, -, h⟩ := bind_eq_ok h
    obtain ⟨n, -, h⟩ := bind_eq_ok h
    cases h
    have := le_scan isHexDigit src (pos + 2)
    change pos < scan isHexDigit src (pos + 2)
    omega
  split at h
  · rename_i hdigit
    have hscan : pos < scan numByte src pos := lt_scan hb (numByte_of_isDigit hdigit)
    rw [lexDigit_eq] at h
    obtain ⟨ext, hext, h⟩ := bind_eq_ok h
    cases ext with
    | some t =>
      cases h
      exact Nat.lt_of_lt_of_le hscan (extend_forward hext)
    | none =>
      obtain ⟨raw, -, h⟩ := bind_eq_ok h
      obtain ⟨tok, -, h⟩ := bind_eq_ok h
      cases h
      exact hscan
  split at h
  · rename_i hword
    have hlen : 0 < wordLen (src.drop pos) := wordLen_pos (getElem?_zero_drop.trans hb) hword
    unfold lexWord at h
    obtain ⟨word, -, h⟩ := bind_eq_ok h
    have hend : turn.2 = pos + wordLen (src.drop pos) := by
      split at h
      · cases h
        rfl
      · split at h
        · cases h
          rfl
        · cases h
          rfl
    omega
  · obtain ⟨rest, -, h⟩ := bind_eq_ok h
    cases h

end

/-! ### What the loop makes of the rest -/

/-- The tokens of a source, or none if there is an error. -/
def lexed (src : List UInt8) : Option (List Spanned) := (lexBytes src).toOption

theorem shift_shift (d k : Nat) (t : Spanned) : shift d (shift k t) = shift (k + d) t := by
  simp [shift, Nat.add_assoc]

theorem moved_moved (d k : Nat) (turn : Turn) : moved d (moved k turn) = moved (k + d) turn := by
  have : shift d ∘ shift k = shift (k + d) := funext fun t => shift_shift d k t
  simp [moved, Option.map_map, Nat.add_assoc, this]

section
variable {src : List UInt8}

theorem lexLoop_end {fuel pos : Nat} {acc : List Spanned} (h : src.length ≤ pos) :
    lexLoop src fuel pos acc = .ok acc := by
  unfold lexLoop
  rw [if_neg (Nat.not_lt.mpr h)]

theorem lexLoop_step {fuel pos : Nat} {acc : List Spanned} (h : pos < src.length) :
    (lexLoop src (fuel + 1) pos acc).toOption = (lexStep src pos).toOption.bind fun turn =>
      (lexLoop src fuel turn.2 (acc ++ turn.1.toList)).toOption := by
  rw [lexLoop, if_pos h, toOption_bind]

theorem lexLoop_acc {fuel pos : Nat} (acc : List Spanned) : (lexLoop src fuel pos acc).toOption =
    (lexLoop src fuel pos []).toOption.map (acc ++ ·) := by
  induction fuel generalizing pos acc with
  | zero =>
    unfold lexLoop
    split
    · rfl
    · simp [Except.toOption]
  | succ fuel ih =>
    by_cases h : pos < src.length
    · rw [lexLoop_step h, lexLoop_step h, Option.map_bind]
      refine congrArg _ (funext fun turn => ?_)
      rw [Function.comp_apply, ih, ih ([] ++ turn.1.toList), Option.map_map]
      refine congrFun (congrArg _ (funext fun ts => ?_)) _
      simp
    · rw [lexLoop_end (Nat.le_of_not_lt h), lexLoop_end (Nat.le_of_not_lt h)]
      simp [Except.toOption]

/-- The loop needs no more turns than there are bytes left. -/
theorem lexLoop_fuel {fuel fuel' pos : Nat} (h : src.length - pos ≤ fuel)
    (h' : src.length - pos ≤ fuel') (acc : List Spanned) :
    (lexLoop src fuel pos acc).toOption = (lexLoop src fuel' pos acc).toOption := by
  induction fuel generalizing fuel' pos acc with
  | zero => rw [lexLoop_end (by omega), lexLoop_end (by omega)]
  | succ fuel ih =>
    by_cases hpos : pos < src.length
    · cases fuel' with
      | zero => omega
      | succ fuel' =>
        rw [lexLoop_step hpos, lexLoop_step hpos]
        cases hstep : lexStep src pos with
        | error e => rfl
        | ok turn =>
          have hforward := lexStep_forward hstep
          exact ih (by omega) (by omega) _
    · rw [lexLoop_end (by omega), lexLoop_end (by omega)]

theorem lexLoop_drop {fuel d k : Nat} (hd : d ≤ src.length) :
    (lexLoop src fuel (k + d) []).toOption =
      (lexLoop (src.drop d) fuel k []).toOption.map (List.map (shift d)) := by
  induction fuel generalizing k with
  | zero =>
    unfold lexLoop
    rw [List.length_drop]
    by_cases h : k + d < src.length
    · rw [if_pos h, if_pos (by omega)]
      rfl
    · rw [if_neg h, if_neg (by omega)]
      rfl
  | succ fuel ih =>
    by_cases h : k + d < src.length
    · have hk : k < (src.drop d).length := by
        rw [List.length_drop]
        omega
      rw [lexLoop_step h, lexLoop_step hk, lexStep_drop h, lexStep_drop hk, List.drop_drop,
        Nat.add_comm d k]
      cases (lexStep (src.drop (k + d)) 0).toOption with
      | none => rfl
      | some turn =>
        simp only [Option.map_some, Option.bind_some, List.nil_append]
        rw [← moved_moved, lexLoop_acc, lexLoop_acc (moved k turn).1.toList]
        change Option.map _ (lexLoop src fuel ((moved k turn).2 + d) []).toOption = _
        rw [ih, Option.map_map, Option.map_map]
        refine congrFun (congrArg _ (funext fun ts => ?_)) _
        cases h1 : turn.1 with
        | none => simp [moved, h1]
        | some t => simp [moved, h1]
    · rw [lexLoop_end (by omega), lexLoop_end (by rw [List.length_drop]; omega)]
      rfl

/-- A source is lexed a turn at a time, each on what the one before has left. -/
theorem lexed_turn (hsrc : src ≠ []) : lexed src = (lexStep src 0).toOption.bind fun turn =>
    (lexed (src.drop turn.2)).map fun ts => turn.1.toList ++ ts.map (shift turn.2) := by
  have hpos : 0 < src.length := List.length_pos_iff.mpr hsrc
  unfold lexed lexBytes
  rw [← Nat.succ_pred_eq_of_pos hpos, Nat.succ_eq_add_one, lexLoop_step hpos]
  cases hstep : lexStep src 0 with
  | error e => rfl
  | ok turn =>
    have hforward := lexStep_forward hstep
    change (lexLoop src _ turn.2 ([] ++ turn.1.toList)).toOption = Option.map _ _
    rw [lexLoop_acc, List.nil_append]
    by_cases hend : turn.2 ≤ src.length
    · rw [lexLoop_fuel (by rw [Nat.pred_eq_sub_one]; omega) (Nat.le_refl _)]
      have := @lexLoop_drop src (src.length - turn.2) turn.2 0 hend
      rw [Nat.zero_add] at this
      rw [this, Option.map_map, List.length_drop]
      rfl
    · rw [lexLoop_end (by omega), List.drop_eq_nil_of_le (by omega)]
      rfl

end

theorem lexed_nil : lexed [] = some [] := rfl

end PktBaffle.Proofs.Lexer
