import PktBaffle.Proofs.Lexer.Ipv6Text

namespace PktBaffle.Proofs.Lexer
open PktBaffle.Lexer

/-! ### The scanners on a literal -/

/-- The groups that `macGroups` has stepped over. -/
theorem macGroups_some {src : List UInt8} {n pos tmp : Nat} (hn : 0 < n)
    (h : macGroups src n pos = some tmp) : ∃ gs : List (List UInt8), gs.length = n ∧
      (∀ g ∈ gs, Group g) ∧ src.drop pos = gs.flatMap (ascii ':' :: ·) ++ src.drop tmp ∧
      ∀ b ∈ (src.drop tmp).head?, isHexDigit b = false := by
  induction n generalizing pos with
  | zero => cases hn
  | succ n ih =>
    unfold macGroups at h
    simp only at h
    split at h
    · rename_i hcolon
      obtain ⟨hpos, hb⟩ := List.getElem?_eq_some_iff.mp hcolon
      split at h
      · cases h
      rename_i hlen
      have hscan : scan isHexDigit src (pos + 1) =
          pos + 1 + ((src.drop (pos + 1)).takeWhile isHexDigit).length := rfl
      obtain ⟨hsplit, hhex, hend⟩ := takeWhile_split isHexDigit (src.drop (pos + 1))
      rw [List.drop_drop, ← hscan] at hsplit hend
      have hg : Group ((src.drop (pos + 1)).takeWhile isHexDigit) := by
        refine ⟨fun h => ?_, by omega, hhex⟩
        rw [h, List.length_nil] at hscan
        omega
      rw [List.drop_eq_getElem_cons hpos, hb, hsplit]
      cases n with
      | zero =>
        cases h
        refine ⟨[(src.drop (pos + 1)).takeWhile isHexDigit], rfl, ?_, by simp, hend⟩
        intro g hmem
        rw [List.mem_singleton.mp hmem]
        exact hg
      | succ n =>
        obtain ⟨gs, hgs, hall, htext, hstop⟩ := ih (Nat.succ_pos n) h
        refine ⟨(src.drop (pos + 1)).takeWhile isHexDigit :: gs, by simp [hgs], ?_, ?_, hstop⟩
        · intro g hmem
          rcases List.mem_cons.mp hmem with rfl | hmem
          · exact hg
          · exact hall g hmem
        · rw [htext]
          simp
    · cases h

section
variable {s rest : List UInt8} {a : Ipv6Addr} {b : UInt8}

/-- Six groups in front of an IPv6 address are not taken for a MAC address. -/
theorem lexMac_ipv6 {g t : List UInt8} (hg : Group g)
    (h : Ipv6Addr.fromStr (g ++ ascii ':' :: t) = some a)
    (hrest : ∀ b ∈ rest.head?, addrByte b = false) :
    lexMac (g ++ (ascii ':' :: t ++ rest)) 0 g.length = .ok none := by
  unfold lexMac
  cases hmac : macGroups (g ++ (ascii ':' :: t ++ rest)) 5 g.length with
  | none => rfl
  | some tmp =>
    obtain ⟨gs, hlen, hgs, htext, hstop⟩ := macGroups_some (by decide) hmac
    rw [List.drop_left] at htext
    have hgsaddr : ∀ b ∈ gs.flatMap (ascii ':' :: ·), addrByte b = true := by
      intro b hb
      obtain ⟨g', hg', hmem⟩ := List.mem_flatMap.mp hb
      rcases List.mem_cons.mp hmem with rfl | hmem
      · decide
      · exact addrByte_of_isHexDigit ((hgs g' hg').hex b hmem)
    obtain ⟨w, hw, hafter⟩ := prefix_of_run htext.symm hgsaddr hrest
    obtain ⟨front, last, rfl⟩ : ∃ front last, gs = front ++ [last] :=
      ⟨gs.dropLast, gs.getLast (by rintro rfl; cases hlen), (List.dropLast_append_getLast _).symm⟩
    have hstart : ∀ b ∈ w.head?, (src : List UInt8) → src = w ++ rest → src.head? = some b := by
      intro b hb src hsrc
      rw [hsrc, List.head?_append, Option.mem_def.mp hb]
      rfl
    have hcolon : w.head? = some (ascii ':') := by
      rw [hw, List.flatMap_append, List.flatMap_singleton, List.append_assoc] at h
      refine fromStr_six hg (fun g' hg' => hgs g' (List.mem_append_left _ hg')) ?_
        (hgs last (by simp)) (fun b hb => hstop b (hstart b hb _ hafter)) h
      simpa using hlen
    have hnext := hstart _ hcolon _ hafter
    rw [List.head?_drop] at hnext
    simp only [hnext, if_true]
    rfl

theorem second_ne {p : UInt8 → Bool} {t : List UInt8} {x : UInt8} (ht : ∀ b ∈ t, p b = true)
    (hx : p x = false) (hrest : Stops rest)
    (hstop : x ≠ ascii ' ' ∧ x ≠ ascii ')' ∧ x ≠ ascii '/') :
    ((b :: t) ++ rest)[0 + 1]? ≠ some x := by
  intro h
  cases t with
  | nil =>
    rw [Nat.zero_add, List.singleton_append, List.getElem?_cons_succ, ← List.head?_eq_getElem?] at h
    rcases hrest x h with rfl | rfl | rfl
    · exact hstop.1 rfl
    · exact hstop.2.1 rfl
    · exact hstop.2.2 rfl
  | cons a t =>
    cases h
    rw [ht x List.mem_cons_self] at hx
    cases hx

theorem wordLen_run (hs : ∀ b ∈ s, isAlnum b || b == ascii ':' || b == ascii '.')
    (hrest : Stops rest) : wordLen (s ++ rest) = s.length := by
  induction s with
  | nil =>
    cases rest with
    | nil => rfl
    | cons b rest =>
      rw [List.nil_append, wordLen, if_neg]
      · rfl
      · rcases hrest b rfl with rfl | rfl | rfl <;> simp [ascii, isAlnum, isAlpha, isDigit]
  | cons b s ih =>
    have hb := hs b List.mem_cons_self
    rw [List.cons_append, wordLen, if_pos, ih fun a ha => hs a (List.mem_cons_of_mem b ha)]
    · rw [List.length_cons, Nat.add_comm]
    · simp only [Bool.or_eq_true] at hb ⊢
      tauto

/-- A word that reads as a colon address lexes to it. -/
theorem lexWord_run (hs : ∀ b ∈ s, isAlnum b || b == ascii ':' || b == ascii '.')
    (hrest : Stops rest) : lexWord (s ++ rest) 0 =
      match if looksLikeIpv6 s then Ipv6Addr.fromStr s else none with
      | some addr => .ok (some ⟨.ipv6 addr, 0⟩, s.length)
      | none =>
        match if looksLikeMac s then parseMac s else none with
        | some mac => .ok (some ⟨.mac mac, 0⟩, s.length)
        | none => .ok (some ⟨keywordOrIdent (text s), 0⟩, s.length) := by
  unfold lexWord
  simp only [List.drop_zero, Nat.zero_add, wordLen_run hs hrest, slice_run hrest]
  rfl

/-- An IPv6 address lexes to one token. -/
theorem lexStep_ipv6 (h : Ipv6Addr.fromStr s = some a) (hrest : Stops rest) :
    lexStep (s ++ rest) 0 = .ok (some ⟨.ipv6 a, 0⟩, s.length) := by
  obtain ⟨hall, hcolons⟩ := fromStr_text h
  have haddr : ∀ b ∈ rest.head?, addrByte b = false := hrest.not (by decide)
  have hlooks : looksLikeIpv6 s = true := decide_eq_true hcolons
  obtain ⟨b, t, rfl⟩ : ∃ b t, s = b :: t := by
    cases s with
    | nil => cases h
    | cons b t => exact ⟨b, t, rfl⟩
  have hb : ((b :: t) ++ rest)[0]? = some b := rfl
  have ht : ∀ b ∈ t, addrByte b = true := fun c hc => hall c (List.mem_cons_of_mem b hc)
  by_cases hhex : isHexDigit b = true
  · by_cases hdigit : isDigit b = true
    · rw [lexStep_digit hb hdigit (second_ne ht (by decide) hrest (by decide))
        (second_ne ht (by decide) hrest (by decide)), lexDigit_eq]
      obtain ⟨g, u, htext, hg⟩ := fromStr_first h hhex
      have hnum : ∀ b ∈ g, numByte b = true := fun c hc => by
        simp [numByte, isAlnum_of_isHexDigit (hg.hex c hc)]
      rw [htext] at h hall hlooks ⊢
      have hpos := @scan_run numByte [] g (ascii ':' :: u ++ rest) hnum (by rintro b ⟨⟩; decide)
      have hend := @scan_run addrByte g (ascii ':' :: u) rest
        (fun c hc => hall c (List.mem_append_right g hc)) haddr
      rw [List.nil_append, ← List.append_assoc] at hpos
      change scan numByte _ 0 = _ at hpos
      rw [hpos]
      unfold extend
      rw [if_pos (by simp), lexIpv6_eq, hend, slice_run hrest, List.append_assoc,
        lexMac_ipv6 hg h haddr]
      simp [hlooks, h, bind, Except.bind, pure, Except.pure]
    · rw [lexStep_alpha hb (hexLetter hhex hdigit), lexWord_run _ hrest, hlooks, if_pos rfl, h]
      intro c hc
      have := hall c hc
      simp only [addrByte, Bool.or_eq_true] at this ⊢
      rcases this with (hc | hc) | hc
      · exact .inl (.inl (isAlnum_of_isHexDigit hc))
      · exact .inl (.inr hc)
      · exact .inr hc
  · obtain ⟨rfl, hnext⟩ := fromStr_colons h (by simpa using hhex)
    have hsecond : ((ascii ':' :: t) ++ rest)[0 + 1]? = some (ascii ':') := by
      obtain ⟨u, rfl⟩ := List.head?_eq_some_iff.mp hnext
      rfl
    have hscan := @scan_run addrByte [] (ascii ':' :: t) rest hall haddr
    rw [lexStep_colon hb, lexColon_eq, if_pos hsecond, lexIpv6_eq]
    change (slice _ 0 (scan addrByte _ 0) >>= _ ) >>= _ = _
    rw [show scan addrByte (ascii ':' :: t ++ rest) 0 = (ascii ':' :: t).length from hscan,
      slice_run hrest]
    simp [h, bind, Except.bind, pure, Except.pure]

end

/-! ### MAC and dotted addresses -/

/-- The bytes between separators. -/
def joined (sep : UInt8) (parts : List (List UInt8)) : List UInt8 := [sep].intercalate parts

theorem joined_cons (sep : UInt8) (g : List UInt8) (gs : List (List UInt8)) :
    joined sep (g :: gs) = g ++ gs.flatMap (sep :: ·) := by
  unfold joined
  induction gs generalizing g with
  | nil => simp [List.intercalate]
  | cons g' gs ih =>
    rw [List.intercalate_cons_cons, ih]
    simp

theorem mapM_some {α β : Type} {f : α → Option β} {v : α → β} {l : List α}
    (h : ∀ a ∈ l, f a = some (v a)) : l.mapM f = some (l.map v) := by
  induction l with
  | nil => rfl
  | cons a l ih =>
    rw [List.mapM_cons, h a List.mem_cons_self, ih fun b hb => h b (List.mem_cons_of_mem a hb)]
    rfl

theorem fromStrRadix_digits {radix max : Nat} {ds : List UInt8} (hplus : (toDigit radix (ascii '+')).isSome = false)
    (hne : ds ≠ []) (hall : ∀ b ∈ ds, (toDigit radix b).isSome = true)
    (hmax : digitsValue radix ds ≤ max) : fromStrRadix radix max ds = some (digitsValue radix ds) := by
  have hhead : ds.head? ≠ some (ascii '+') := by
    intro h
    rw [hall _ (List.mem_of_head? h)] at hplus
    cases hplus
  unfold fromStrRadix
  rw [if_neg hhead]
  exact if_pos ⟨hne, List.all_eq_true.mpr hall, hmax⟩

/-- A group of a MAC address. -/
structure MacGroup (g : List UInt8) : Prop where
  size : g.length = 1 ∨ g.length = 2
  hex : ∀ b ∈ g, isHexDigit b = true

theorem MacGroup.group {g : List UInt8} (h : MacGroup g) : Group g where
  nonempty := by
    rintro rfl
    rcases h.size with h | h <;> cases h
  short := by
    rcases h.size with h | h <;> omega
  hex := h.hex

/-- The six bytes that the groups denote. -/
def macOf (groups : List (List UInt8)) : Vector UInt8 6 :=
  Vector.ofFn fun i => UInt8.ofNat (digitsValue 16 (groups.getD i.val []))

section
variable {gs : List (List UInt8)} {g rest : List UInt8}

theorem splitOn_joined (hne : gs ≠ []) (hgs : ∀ g ∈ gs, MacGroup g) :
    (joined (ascii ':') gs).splitOn (ascii ':') = gs := by
  refine List.splitOn_intercalate _ (fun g hg hmem => ?_) hne
  exact absurd ((hgs g hg).hex _ hmem) (by decide)

theorem parseMac_joined (hlen : gs.length = 6) (hgs : ∀ g ∈ gs, MacGroup g) :
    parseMac (joined (ascii ':') gs) = some (macOf gs) := by
  have hsplit := splitOn_joined (by rintro rfl; cases hlen) hgs
  have hoctets : gs.mapM (fromStrRadix 16 255) = some (gs.map (digitsValue 16)) := by
    refine mapM_some fun g hg => ?_
    have hlt := @digitsValue_lt 16 (by decide) g
    have hle : 16 ^ g.length ≤ 16 ^ 2 := Nat.pow_le_pow_right (by decide) (by
      rcases (hgs g hg).size with h | h <;> omega)
    exact fromStrRadix_digits (by decide) (hgs g hg).group.nonempty (hgs g hg).hex (by omega)
  unfold parseMac
  simp only [hsplit]
  rw [if_neg (by simp [hlen]), hoctets]
  change some _ = some _
  refine congrArg some (congrArg Vector.ofFn (funext fun i => ?_))
  exact congrArg UInt8.ofNat (List.getD_map gs [] (digitsValue 16))

theorem macGroups_run (hgs : ∀ g ∈ gs, MacGroup g) (hrest : ∀ b ∈ rest.head?, isHexDigit b = false) :
    macGroups (g ++ gs.flatMap (ascii ':' :: ·) ++ rest) gs.length g.length =
      some (g ++ gs.flatMap (ascii ':' :: ·)).length := by
  induction gs generalizing g with
  | nil => simp [macGroups]
  | cons g' gs ih =>
    have hg' := hgs g' List.mem_cons_self
    have hnext : ∀ b ∈ (gs.flatMap (ascii ':' :: ·) ++ rest).head?, isHexDigit b = false := by
      cases gs with
      | nil => exact hrest
      | cons g gs => exact colon_stops
    have hrest' := ih (g := g ++ ascii ':' :: g') fun g hg => hgs g (List.mem_cons_of_mem g' hg)
    have hscan := @scan_run isHexDigit (g ++ [ascii ':']) g' _ hg'.hex hnext
    have htext : g ++ ascii ':' :: g' ++ gs.flatMap (ascii ':' :: ·) ++ rest =
        g ++ [ascii ':'] ++ g' ++ (gs.flatMap (ascii ':' :: ·) ++ rest) := by simp
    have hwhole : g ++ (g' :: gs).flatMap (ascii ':' :: ·) =
        g ++ ascii ':' :: g' ++ gs.flatMap (ascii ':' :: ·) := by simp
    rw [hwhole, List.length_cons, macGroups, if_pos (by simp)]
    rw [htext] at hrest' ⊢
    have hstart : (g ++ [ascii ':']).length = g.length + 1 := by simp
    have hend : (g ++ [ascii ':'] ++ g').length = (g ++ ascii ':' :: g').length := by simp
    rw [hstart, hend] at hscan
    rw [hscan, if_neg]
    · exact hrest'
    · have := hg'.size
      rw [List.length_append, List.length_cons]
      omega

/-- Six groups of hex digits alone are no IPv6 address. -/
theorem fromStr_groups {tl : List (List UInt8)} (hg : Group g) (htl : ∀ g ∈ tl, Group g)
    (hlen : tl.length = 5) : Ipv6Addr.fromStr (g ++ tl.flatMap (ascii ':' :: ·)) = none := by
  cases h : Ipv6Addr.fromStr (g ++ tl.flatMap (ascii ':' :: ·)) with
  | none => rfl
  | some a =>
    obtain ⟨front, last, rfl⟩ : ∃ front last, tl = front ++ [last] :=
      ⟨tl.dropLast, tl.getLast (by rintro rfl; cases hlen), (List.dropLast_append_getLast _).symm⟩
    rw [List.flatMap_append, List.flatMap_singleton, ← List.append_nil last] at h
    have := fromStr_six hg (fun g' hg' => htl g' (List.mem_append_left _ hg')) (by simpa using hlen)
      (htl last (by simp)) (by rintro b ⟨⟩) h
    cases this

theorem stops_colon {s : List UInt8} (hrest : Stops rest) :
    (s ++ rest)[s.length]? ≠ some (ascii ':') := by
  rw [List.getElem?_append_right (Nat.le_refl _), Nat.sub_self, ← List.head?_eq_getElem?]
  intro h
  rcases hrest _ h with h | h | h <;> exact absurd h (by decide)

/-- Five groups behind the first one are taken for a MAC address. -/
theorem lexMac_run {tl : List (List UInt8)} (hlen : tl.length = 5) (htl : ∀ g ∈ tl, MacGroup g)
    {mac : Vector UInt8 6} (hmac : parseMac (g ++ tl.flatMap (ascii ':' :: ·)) = some mac)
    (hrest : Stops rest) : lexMac (g ++ tl.flatMap (ascii ':' :: ·) ++ rest) 0 g.length =
      .ok (some (some ⟨.mac mac, 0⟩, (g ++ tl.flatMap (ascii ':' :: ·)).length)) := by
  have hgroups := macGroups_run (g := g) htl (hrest.not (p := isHexDigit) (by decide))
  rw [hlen] at hgroups
  unfold lexMac
  simp only [hgroups, if_neg (stops_colon hrest), slice_run hrest]
  change Except.ok (Option.map _ (parseMac _)) = _
  rw [hmac]
  rfl

/-- Six groups of one or two hex digits lex to one token. -/
theorem lexStep_mac (hlen : gs.length = 6) (hgs : ∀ g ∈ gs, MacGroup g) (hrest : Stops rest) :
    lexStep (joined (ascii ':') gs ++ rest) 0 =
      .ok (some ⟨.mac (macOf gs), 0⟩, (joined (ascii ':') gs).length) := by
  have hmac := parseMac_joined hlen hgs
  have hcolons : colons (joined (ascii ':') gs) = 5 := by
    have := length_splitOn (ascii ':') (joined (ascii ':') gs)
    rw [splitOn_joined (by rintro rfl; cases hlen) hgs, hlen] at this
    exact (Nat.succ.inj this).symm
  obtain ⟨g, tl, rfl⟩ : ∃ g tl, gs = g :: tl := by
    cases gs with
    | nil => cases hlen
    | cons g tl => exact ⟨g, tl, rfl⟩
  have hg := hgs g List.mem_cons_self
  have htl : ∀ g ∈ tl, MacGroup g := fun g' hg' => hgs g' (List.mem_cons_of_mem g hg')
  have hlen' : tl.length = 5 := Nat.succ.inj hlen
  obtain ⟨b, t, rfl⟩ : ∃ b t, g = b :: t := by
    cases g with
    | nil => exact absurd rfl hg.group.nonempty
    | cons b t => exact ⟨b, t, rfl⟩
  have hhex := hg.hex b List.mem_cons_self
  rw [joined_cons] at hmac hcolons ⊢
  have hall : ∀ c ∈ b :: t ++ tl.flatMap (ascii ':' :: ·), isHexDigit c || c == ascii ':' := by
    intro c hc
    rcases List.mem_append.mp hc with hc | hc
    · simp [hg.hex c hc]
    · obtain ⟨g', hg', hmem⟩ := List.mem_flatMap.mp hc
      rcases List.mem_cons.mp hmem with rfl | hmem
      · simp
      · simp [(htl g' hg').hex c hmem]
  have hb : (b :: t ++ tl.flatMap (ascii ':' :: ·) ++ rest)[0]? = some b := rfl
  by_cases hdigit : isDigit b = true
  · have hsecond : ∀ x, (isHexDigit x || x == ascii ':') = false →
        (x ≠ ascii ' ' ∧ x ≠ ascii ')' ∧ x ≠ ascii '/') →
        (b :: t ++ tl.flatMap (ascii ':' :: ·) ++ rest)[0 + 1]? ≠ some x := fun x hx hstop =>
      second_ne (fun c hc => hall c (List.mem_cons_of_mem b hc)) hx hrest hstop
    have hnum : ∀ c ∈ b :: t, numByte c = true := fun c hc => by
      simp [numByte, isAlnum_of_isHexDigit (hg.hex c hc)]
    obtain ⟨u, hu⟩ : ∃ u, tl.flatMap (ascii ':' :: ·) = ascii ':' :: u := by
      cases tl with
      | nil => cases hlen'
      | cons g tl => exact ⟨_, rfl⟩
    have hpos : scan numByte (b :: t ++ tl.flatMap (ascii ':' :: ·) ++ rest) 0 = (b :: t).length := by
      have := @scan_run numByte [] (b :: t) (tl.flatMap (ascii ':' :: ·) ++ rest) hnum (by
        rw [hu]
        rintro c ⟨⟩
        decide)
      rwa [List.nil_append, ← List.append_assoc] at this
    have hcolon : (b :: t ++ tl.flatMap (ascii ':' :: ·) ++ rest)[(b :: t).length]? =
        some (ascii ':') := by
      rw [hu]
      simp
    rw [lexStep_digit hb hdigit (hsecond _ (by decide) (by decide))
      (hsecond _ (by decide) (by decide)), lexDigit_eq, hpos]
    unfold extend
    rw [if_pos hcolon, lexMac_run hlen' htl hmac hrest]
    rfl
  · rw [lexStep_alpha hb (hexLetter hhex hdigit), lexWord_run _ hrest,
      fromStr_groups hg.group (fun g' hg' => (htl g' hg').group) hlen', ite_self]
    · have hlooks : looksLikeMac (b :: t ++ tl.flatMap (ascii ':' :: ·)) = true := by
        unfold looksLikeMac
        rw [hcolons]
        rfl
      rw [hlooks, if_pos rfl, hmac]
    · intro c hc
      have := hall c hc
      simp only [Bool.or_eq_true] at this ⊢
      rcases this with hc | hc
      · exact .inl (.inl (isAlnum_of_isHexDigit hc))
      · exact .inl (.inr hc)

/-- A decimal octet, leading zeros allowed. -/
structure Octet (ds : List UInt8) : Prop where
  nonempty : ds ≠ []
  digits : ∀ b ∈ ds, isDigit b = true
  value : digitsValue 10 ds ≤ 255

/-- The octets, zero-padded to four. -/
def octetsOf (parts : List (List UInt8)) : Vector UInt8 4 :=
  Vector.ofFn fun i => UInt8.ofNat (digitsValue 10 (parts.getD i.val []))

theorem parseIpv4_joined {offset : Nat} (hne : gs ≠ []) (hlen : gs.length ≤ 4)
    (hgs : ∀ ds ∈ gs, Octet ds) : parseIpv4 (joined (ascii '.') gs) offset =
      .ok (.ipv4 (octetsOf gs) (UInt8.ofNat gs.length)) := by
  have hsplit : (joined (ascii '.') gs).splitOn (ascii '.') = gs := by
    refine List.splitOn_intercalate _ (fun ds hds hmem => ?_) hne
    exact absurd ((hgs ds hds).digits _ hmem) (by decide)
  have hoctets : gs.mapM (fromStrRadix 10 255) = some (gs.map (digitsValue 10)) := by
    refine mapM_some fun ds hds => ?_
    refine fromStrRadix_digits (by decide) (hgs ds hds).nonempty (fun b hb => ?_) (hgs ds hds).value
    rw [toDigit_ten]
    exact (hgs ds hds).digits b hb
  unfold parseIpv4
  simp only [hsplit, if_pos hlen, hoctets]
  refine congrArg (fun v => Except.ok (Token.ipv4 v _)) (congrArg Vector.ofFn (funext fun i => ?_))
  exact congrArg UInt8.ofNat (List.getD_map gs [] (digitsValue 10))

/-- Two to four decimal octets lex to one token. -/
theorem lexStep_ipv4 (hmin : 2 ≤ gs.length) (hmax : gs.length ≤ 4) (hgs : ∀ ds ∈ gs, Octet ds)
    (hrest : Stops rest) : lexStep (joined (ascii '.') gs ++ rest) 0 =
      .ok (some ⟨.ipv4 (octetsOf gs) (UInt8.ofNat gs.length), 0⟩,
        (joined (ascii '.') gs).length) := by
  have hne : gs ≠ [] := by
    rintro rfl
    exact absurd hmin (by decide)
  have hparse := @parseIpv4_joined gs 0 hne hmax hgs
  have hall : ∀ c ∈ joined (ascii '.') gs, isDigit c || c == ascii '.' := by
    obtain ⟨ds, tl, rfl⟩ := List.exists_cons_of_ne_nil hne
    rw [joined_cons]
    intro c hc
    rcases List.mem_append.mp hc with hc | hc
    · simp [(hgs ds List.mem_cons_self).digits c hc]
    · obtain ⟨ds', hds', hmem⟩ := List.mem_flatMap.mp hc
      rcases List.mem_cons.mp hmem with rfl | hmem
      · simp
      · simp [(hgs ds' (List.mem_cons_of_mem ds hds')).digits c hmem]
  have hdot : (joined (ascii '.') gs).contains (ascii '.') = true := by
    obtain ⟨ds, tl, rfl⟩ := List.exists_cons_of_ne_nil hne
    obtain ⟨ds', tl, rfl⟩ : ∃ ds' tl', tl = ds' :: tl' := by
      cases tl with
      | nil => exact absurd hmin (by simp)
      | cons ds' tl => exact ⟨ds', tl, rfl⟩
    rw [joined_cons]
    simp
  have hnum : ∀ c ∈ joined (ascii '.') gs, numByte c = true := by
    intro c hc
    have := hall c hc
    simp only [Bool.or_eq_true] at this
    rcases this with hc | hc
    · exact numByte_of_isDigit hc
    · simp [numByte, hc]
  obtain ⟨b, t, htext, hdigit⟩ : ∃ b t, joined (ascii '.') gs = b :: t ∧ isDigit b = true := by
    obtain ⟨ds, tl, rfl⟩ := List.exists_cons_of_ne_nil hne
    have hds := hgs ds List.mem_cons_self
    obtain ⟨b, t, rfl⟩ := List.exists_cons_of_ne_nil hds.nonempty
    exact ⟨b, _, joined_cons .., hds.digits b List.mem_cons_self⟩
  rw [htext] at hall hdot hnum hparse ⊢
  have hb : (b :: t ++ rest)[0]? = some b := rfl
  have hsecond : ∀ x, (isDigit x || x == ascii '.') = false →
      (x ≠ ascii ' ' ∧ x ≠ ascii ')' ∧ x ≠ ascii '/') → (b :: t ++ rest)[0 + 1]? ≠ some x :=
    fun x hx hstop => second_ne (fun c hc => hall c (List.mem_cons_of_mem b hc)) hx hrest hstop
  have hpos := @scan_run numByte [] (b :: t) rest hnum (hrest.not (by decide))
  change scan numByte (b :: t ++ rest) 0 = (b :: t).length at hpos
  rw [lexStep_digit hb hdigit (hsecond _ (by decide) (by decide))
    (hsecond _ (by decide) (by decide)), lexDigit_eq, hpos]
  unfold extend
  rw [if_neg (stops_colon hrest), slice_run hrest]
  change (parseNumlike (b :: t) 0 >>= _) = _
  unfold parseNumlike
  rw [if_pos hdot, hparse]
  rfl

end

/-! ### Address literals -/

/-- The text of an address and the token that stands for it. -/
inductive Literal : List UInt8 → Token → Prop where
  | ipv6 {s : List UInt8} {a : Ipv6Addr} (h : Ipv6Addr.fromStr s = some a) : Literal s (.ipv6 a)
  | mac {groups : List (List UInt8)} (size : groups.length = 6) (h : ∀ g ∈ groups, MacGroup g) :
      Literal (joined (ascii ':') groups) (.mac (macOf groups))
  | ipv4 {octets : List (List UInt8)} (min : 2 ≤ octets.length) (max : octets.length ≤ 4)
      (h : ∀ ds ∈ octets, Octet ds) : Literal (joined (ascii '.') octets)
        (.ipv4 (octetsOf octets) (UInt8.ofNat octets.length))

theorem Literal.lexStep {s rest : List UInt8} {t : Token} (h : Literal s t) (hrest : Stops rest) :
    lexStep (s ++ rest) 0 = .ok (some ⟨t, 0⟩, s.length) := by
  cases h with
  | ipv6 h => exact lexStep_ipv6 h hrest
  | mac size h => exact lexStep_mac size h hrest
  | ipv4 min max h => exact lexStep_ipv4 min max h hrest

/-- Every address literal lexes to its one token, alone and in front of a blank, a `)` or a `/`,
where the rest lexes as it would by itself. -/
theorem address_literals (src : String) (t : Token) (h : Literal (utf8 src) t) :
    lex src = .ok [⟨t, 0⟩] ∧
      ∀ rest : String, Stops (utf8 rest) → (lex (src ++ rest)).toOption =
        (lex rest).toOption.map fun ts => ⟨t, 0⟩ :: ts.map (shift (utf8 src).length) := by
  have hne : utf8 src ≠ [] := by
    intro hnil
    have := @Literal.lexStep _ [] t h (by rintro b ⟨⟩)
    rw [hnil] at this
    cases this
  constructor
  · have hstep := @Literal.lexStep _ [] t h (by rintro b ⟨⟩)
    rw [List.append_nil] at hstep
    have hpos : 0 < (utf8 src).length := List.length_pos_iff.mpr hne
    change lexLoop (utf8 src) (utf8 src).length 0 [] = _
    rw [← Nat.sub_add_cancel hpos, lexLoop, if_pos hpos, hstep]
    exact lexLoop_end (Nat.le_refl _)
  · intro rest hrest
    have hlexed := @lexed_turn (utf8 src ++ utf8 rest) (by simp [hne])
    rw [h.lexStep hrest] at hlexed
    change lexed (utf8 (src ++ rest)) = (lexed (utf8 rest)).map _
    rw [utf8_append, hlexed]
    simp [Except.toOption]

/-- The well-known prefix of NAT64 with a dotted tail. -/
theorem address_literals_nat64 :
    lex "64:ff9b::192.0.2.1" =
        .ok [⟨.ipv6 ⟨#v[0x64, 0xff9b, 0, 0, 0, 0, 0xc000, 0x0201]⟩, 0⟩] ∧
      ∀ rest : String, Stops (utf8 rest) → (lex ("64:ff9b::192.0.2.1" ++ rest)).toOption =
        (lex rest).toOption.map fun ts =>
          ⟨.ipv6 ⟨#v[0x64, 0xff9b, 0, 0, 0, 0, 0xc000, 0x0201]⟩, 0⟩ ::
            ts.map (shift (utf8 "64:ff9b::192.0.2.1").length) :=
  address_literals _ _ (.ipv6 (by decide))

end PktBaffle.Proofs.Lexer
