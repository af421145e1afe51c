import PktBaffle.Proofs.Lexer.Seams
import PktBaffle.Proofs.Parser.Passage

namespace PktBaffle.Proofs.Constants
open PktBaffle.Lexer PktBaffle.Parsing PktBaffle.Proofs.Lexer PktBaffle.Proofs.Parser

/-- What becomes of a filter: its tree, or nothing if it is refused. -/
def outcome (src : String) : Option Expr := (lex src >>= parse).toOption

/-- A named constant and its value. -/
def Constant (name : String) (v : UInt64) : Prop := (name, Token.num v) ∈ keywords

/-- The constant stands by itself: it is not tied by a `-` to another constant before it, and
neither a `:` nor a `-` and a letter follow. -/
structure Apart (before behind : List UInt8) : Prop where
  tied : ∀ name v, Constant name v → ¬ utf8 name ++ [ascii '-'] <:+ before
  colon : behind.head? ≠ some (ascii ':')
  dash : ∀ a t, behind = ascii '-' :: a :: t → isAlpha a = false

/-! ### The table of keywords -/

/-- What the table has to say of a constant: its name is a word of letters, digits and `-` that
starts with `t` or `i`, it is looked up under its name, and its numeral denotes its value. -/
def constantOk (e : String × Token) : Bool :=
  match e.2 with
  | .num v =>
    let name := utf8 e.1
    let digits := utf8 (toString v.toNat)
    (name.head? == some (ascii 't') || name.head? == some (ascii 'i')) &&
      wordLen name == name.length && name.all (fun b => isAlnum b || b == ascii '-') &&
      keywordOrIdent (text name) == e.2 && digits != [] && digits.all isDigit &&
      decide (parseNumlike digits 0 = .ok e.2)
  | _ => true

theorem constants_ok : keywords.all constantOk = true := by decide

/-- A keyword has no colon, and at most one `-`. -/
theorem keywords_dashes : keywords.all (fun k =>
    (utf8 k.1).count (ascii ':') == 0 && (utf8 k.1).count (ascii '-') ≤ 1) = true := by
  decide

/-- No keyword goes on with a `-` behind the name of a constant without one, or holds it behind
a `-`. -/
theorem constants_free : keywords.all (fun e => match e.2 with
    | .num _ => 1 ≤ (utf8 e.1).count (ascii '-') || keywords.all fun k =>
        !(utf8 e.1 ++ [ascii '-']).isPrefixOf (utf8 k.1) &&
        !decide (ascii '-' :: utf8 e.1 <:+: utf8 k.1)
    | _ => true) = true := by decide

theorem keywords_ascii : keywords.all (fun e => text (utf8 e.1) == e.1) = true := by decide

section
variable {name : String} {v : UInt64}

/-- The name of a constant, as the lexer meets it. -/
structure Spelled (name : String) (v : UInt64) : Prop where
  named : Named (utf8 name)
  bytes : ∀ b ∈ utf8 name, isAlnum b || b == ascii '-'
  found : keywordOrIdent (text (utf8 name)) = .num v

/-- The numeral of a constant. -/
structure Numeral (v : UInt64) : Prop where
  nonempty : utf8 (toString v.toNat) ≠ []
  digits : ∀ b ∈ utf8 (toString v.toNat), isDigit b = true
  value : parseNumlike (utf8 (toString v.toNat)) 0 = .ok (.num v)

theorem Constant.ok (h : Constant name v) : Spelled name v ∧ Numeral v := by
  have := List.all_eq_true.mp constants_ok _ h
  simp only [constantOk, Bool.and_eq_true, Bool.or_eq_true, beq_iff_eq, bne_iff_ne,
    List.all_eq_true, decide_eq_true_eq] at this
  obtain ⟨⟨⟨⟨⟨⟨hinitial, hwhole⟩, hbytes⟩, hfound⟩, hne⟩, hdigits⟩, hvalue⟩ := this
  refine ⟨⟨⟨⟨?_, hwhole⟩, hinitial⟩, fun b hb => ?_, hfound⟩, hne, hdigits, hvalue⟩
  · rcases hinitial with h | h
    · exact ⟨_, h, .inl (by decide)⟩
    · exact ⟨_, h, .inl (by decide)⟩
  · simpa using hbytes b hb

theorem Constant.free (h : Constant name v) {e : String × Token} (he : e ∈ keywords) :
    ¬ utf8 name ++ [ascii ':'] <+: utf8 e.1 ∧ ¬ utf8 name ++ [ascii '-'] <+: utf8 e.1 ∧
      ¬ ascii '-' :: utf8 name <:+: utf8 e.1 := by
  have hcount := List.all_eq_true.mp keywords_dashes _ he
  rw [Bool.and_eq_true, beq_iff_eq, decide_eq_true_eq] at hcount
  obtain ⟨hcolon, hdash⟩ := hcount
  refine ⟨fun h => ?_, ?_⟩
  · have hle := h.sublist.count_le (ascii ':')
    rw [List.count_append, List.count_singleton_self] at hle
    omega
  have hfree := List.all_eq_true.mp constants_free _ h
  rw [Bool.or_eq_true, decide_eq_true_eq] at hfree
  rcases hfree with hone | hfree
  · -- a second `-` would be one too many
    change 1 ≤ (utf8 name).count (ascii '-') at hone
    constructor
    · intro h
      have hle := h.sublist.count_le (ascii '-')
      rw [List.count_append, List.count_singleton_self] at hle
      omega
    · intro h
      have hle := h.sublist.count_le (ascii '-')
      rw [List.count_cons_self] at hle
      omega
  · have hfree := List.all_eq_true.mp hfree e he
    rw [Bool.and_eq_true, Bool.not_eq_true', Bool.not_eq_true', decide_eq_false_iff_not] at hfree
    refine ⟨fun h => ?_, hfree.2⟩
    rw [← List.isPrefixOf_iff_prefix, hfree.1] at h
    cases h

theorem text_inj {s t : List UInt8} (h : text s = text t) : s = t := by
  have hchars := String.ofList_injective h
  have hinj : Function.Injective fun b : UInt8 => Char.ofNat b.toNat := by
    intro a b hab
    have hnat := congrArg Char.toNat hab
    have hval : ∀ c : UInt8, (Char.ofNat c.toNat).toNat = c.toNat :=
      forall_byte (by decide)
    simp only [hval] at hnat
    exact UInt8.toNat_inj.mp hnat
  exact List.map_injective_iff.mpr hinj hchars

theorem keyword_bytes {e : String × Token} (he : e ∈ keywords) {w : List UInt8}
    (h : e.1 = text w) : utf8 e.1 = w := by
  have := List.all_eq_true.mp keywords_ascii e he
  rw [beq_iff_eq] at this
  exact text_inj (this.trans h)

end

/-! ### Words -/

/-- The token of a word. -/
def wordToken (w : List UInt8) : Token :=
  match if looksLikeIpv6 w then Ipv6Addr.fromStr w else none with
  | some addr => .ipv6 addr
  | none =>
    match if looksLikeMac w then parseMac w else none with
    | some mac => .mac mac
    | none => keywordOrIdent (text w)

theorem lexWord_token {src : List UInt8} {turn : Turn} (h : lexWord src 0 = .ok turn) :
    turn = (some ⟨wordToken (src.take (wordLen src)), 0⟩, wordLen src) := by
  unfold lexWord at h
  obtain ⟨word, hslice, h⟩ := bind_eq_ok h
  have hword : src.take (wordLen src) = word := by
    unfold slice at hslice
    split at hslice
    · cases hslice
      simp
    · cases hslice
  rw [List.drop_zero, Nat.zero_add] at h
  rw [hword]
  unfold wordToken
  generalize (if looksLikeIpv6 word then Ipv6Addr.fromStr word else none) = addr at h ⊢
  cases addr with
  | some addr =>
    cases h
    rfl
  | none =>
    generalize (if looksLikeMac word then parseMac word else none) = mac at h ⊢
    cases mac with
    | some mac =>
      cases h
      rfl
    | none =>
      cases h
      rfl

theorem lexWord_ok {w rest : List UInt8} (hlen : wordLen (w ++ rest) = w.length)
    (hrest : ∀ b ∈ rest.head?, b < 0x80) :
    lexWord (w ++ rest) 0 = .ok (some ⟨wordToken w, 0⟩, w.length) := by
  unfold lexWord wordToken
  simp only [List.drop_zero, Nat.zero_add, hlen, slice_ascii hrest, bind, Except.bind]
  cases (if looksLikeIpv6 w then Ipv6Addr.fromStr w else none) with
  | some addr => rfl
  | none =>
    cases (if looksLikeMac w then parseMac w else none) with
    | some mac => rfl
    | none => rfl

theorem lexStep_word {w x : List UInt8} (hw : Word w) : lexStep (w ++ x) 0 = lexWord (w ++ x) 0 := by
  obtain ⟨b, hb, hstart⟩ := hw.start
  obtain ⟨t, rfl⟩ := List.head?_eq_some_iff.mp hb
  have hfirst : (b :: t ++ x)[0]? = some b := rfl
  rcases hstart with halpha | rfl
  · exact lexStep_alpha hfirst halpha
  · rw [lexStep_starts hfirst (by decide), if_neg (by decide),
      if_neg fun h => absurd h.1 (by decide), if_neg (by decide), if_pos (.inr rfl)]

/-- A word with a foreign letter that is no keyword is not known. -/
theorem wordToken_ident {w : List UInt8} {a : UInt8} (ha : Foreign a) (hmem : a ∈ w)
    (h : ∀ e ∈ keywords, utf8 e.1 ≠ w) : wordToken w = .ident (text w) := by
  have hnone : keywords.lookup (text w) = none := by
    refine lookup_none (List.all_eq_true.mpr fun e he => ?_)
    rw [bne_iff_ne]
    exact fun heq => h e he (keyword_bytes he heq)
  unfold wordToken keywordOrIdent
  rw [fromStr_foreign ha hmem, ite_self, parseMac_foreign ha hmem, ite_self, hnone]
  rfl

/-- A word that a `-` may stand behind is a constant. -/
theorem wordToken_arms {w : List UInt8} (h : arms (wordToken w) = true) :
    ∃ name v, Constant name v ∧ utf8 name = w := by
  unfold wordToken at h
  split at h
  · cases h
  split at h
  · cases h
  unfold keywordOrIdent at h
  cases hl : keywords.lookup (text w) with
  | none =>
    rw [hl] at h
    cases h
  | some t =>
    rw [hl] at h
    have hmem : (text w, t) ∈ keywords := by
      obtain ⟨l₁, l₂, htable, -⟩ := List.lookup_eq_some_iff.mp hl
      rw [htable]
      simp
    have harms : keywords.all (fun e => match e.2 with | .num _ => true | t => !arms t) = true := by
      decide
    have := List.all_eq_true.mp harms _ hmem
    cases t with
    | num v => exact ⟨text w, v, hmem, keyword_bytes hmem rfl⟩
    | _ => first | exact absurd h Bool.false_ne_true | exact absurd this Bool.false_ne_true

/-! ### Filters by their tokens -/

/-- The tokens of a source, without offsets. -/
def spelled (src : List UInt8) : Option (List Token) := (lexed src).map words

theorem outcome_eq (src : String) :
    outcome src = (lexed (utf8 src)).bind fun ts => (parse ts).toOption := toOption_bind _ _

theorem outcome_lexed {src : String} {ts : List Spanned} (h : lex src = .ok ts) :
    outcome src = (parse ts).toOption := by
  unfold outcome
  rw [h]
  rfl

/-- What becomes of a filter depends on its tokens only. -/
theorem outcome_spelled {src src' : String} (h : spelled (utf8 src) = spelled (utf8 src')) :
    outcome src = outcome src' := by
  rw [outcome_eq, outcome_eq]
  unfold spelled at h
  cases hts : lexed (utf8 src) with
  | none =>
    rw [hts] at h
    rw [Option.map_eq_none_iff.mp h.symm]
  | some ts =>
    rw [hts] at h
    obtain ⟨ts', hts', hwords⟩ := Option.map_eq_some_iff.mp h.symm
    rw [hts']
    exact parse_words hwords.symm

/-- An accepted filter has tokens, all known, with what arms before each `-`. -/
theorem outcome_fine {src : String} (h : (outcome src).isSome = true) :
    ∃ ts, spelled (utf8 src) = some ts ∧ (∀ t ∈ ts, known t = true) ∧
      ∀ front t back, ts = front ++ t :: .minus :: back → arms t = true := by
  rw [outcome_eq, Option.isSome_iff_exists] at h
  obtain ⟨e, h⟩ := h
  obtain ⟨ts, hts, hparse⟩ := Option.bind_eq_some_iff.mp h
  have hok : parse ts = .ok e := by
    cases hp : parse ts with
    | error err =>
      rw [hp] at hparse
      cases hparse
    | ok e' =>
      rw [hp] at hparse
      cases hparse
      rfl
  have hfine := parse_fine hok
  have hlen : (words ts).length = ts.length := List.length_map ..
  refine ⟨words ts, by rw [spelled, hts]; rfl, fun t ht => ?_, fun front t back heq => ?_⟩
  · obtain ⟨k, hk, rfl⟩ := List.mem_iff_getElem.mp ht
    obtain ⟨t, htok, hknown, -⟩ := hfine k (Nat.zero_le _) (by omega)
    rw [tokAt_words, List.getElem?_eq_getElem hk] at htok
    cases htok
    exact hknown
  · have hk : front.length + 1 < (words ts).length := by
      rw [heq]
      simp
    obtain ⟨u, htok, -, hminus⟩ := hfine (front.length + 1) (Nat.zero_le _) (by omega)
    rw [tokAt_words, heq] at htok
    obtain rfl : .minus = u := by simpa using htok
    obtain ⟨v, hv, harms⟩ := hminus rfl
    unfold before at hv
    rw [if_neg (Nat.succ_ne_zero _), Nat.add_sub_cancel, tokAt_words, heq] at hv
    obtain rfl : t = v := by simpa using hv
    exact harms

/-- A filter whose tokens go through an unknown word is refused. -/
theorem outcome_unknown {src : String} (h : ∀ ts, spelled (utf8 src) = some ts → ∃ t ∈ ts, known t = false) :
    outcome src = none := by
  cases ho : outcome src with
  | none => rfl
  | some e =>
    obtain ⟨ts, hts, hknown, -⟩ := @outcome_fine src (by rw [ho]; rfl)
    obtain ⟨t, ht, hbad⟩ := h ts hts
    rw [hknown t ht] at hbad
    cases hbad

theorem spelled_turn {src : List UInt8} {t : Token} {n : Nat} (hsrc : src ≠ [])
    (h : lexStep src 0 = .ok (some ⟨t, 0⟩, n)) :
    spelled src = (spelled (src.drop n)).map (t :: ·) := by
  unfold spelled
  rw [lexed_turn hsrc, h]
  simp only [Except.toOption, Option.bind_some, Option.map_map]
  congr 1
  funext ts
  simp [words, shift]

theorem spelled_splits {u x : List UInt8} {c : UInt8} (h : Splits u c x) :
    spelled (u ++ c :: x) = (spelled (u ++ [c])).bind fun ts => (spelled x).map (ts ++ ·) := by
  unfold spelled
  rw [h]
  cases lexed (u ++ [c]) with
  | none => rfl
  | some ts =>
    simp only [Option.bind_some, Option.map_map, Option.map_some]
    congr 1
    funext r
    simp [words, shift]

/-! ### Constants and numerals in front of what may follow -/

section
variable {name : String} {v : UInt64} {rest : List UInt8}

theorem follows_small {b : UInt8} : Follows b = true →
    b < 0x80 ∧ numByte b = false ∧ b ≠ ascii 'x' ∧ b ≠ ascii 'X' :=
  forall_byte (P := fun b => Follows b = true →
    b < 0x80 ∧ numByte b = false ∧ b ≠ ascii 'x' ∧ b ≠ ascii 'X') (by decide) b

theorem lexStep_numeral (hv : Numeral v) (hrest : ∀ b ∈ rest.head?, Follows b = true)
    (hcolon : rest.head? ≠ some (ascii ':')) : lexStep (utf8 (toString v.toNat) ++ rest) 0 =
      .ok (some ⟨.num v, 0⟩, (utf8 (toString v.toNat)).length) := by
  obtain ⟨hne, hdigits, hvalue⟩ := hv
  generalize utf8 (toString v.toNat) = d at hne hdigits hvalue
  obtain ⟨b, t, rfl⟩ := List.exists_cons_of_ne_nil hne
  have hb : (b :: t ++ rest)[0]? = some b := rfl
  have hsecond : ∀ x, x = ascii 'x' ∨ x = ascii 'X' → (b :: t ++ rest)[0 + 1]? ≠ some x := by
    intro x hx h
    cases t with
    | nil =>
      rw [Nat.zero_add, List.singleton_append, List.getElem?_cons_succ, ← List.head?_eq_getElem?] at h
      have := follows_small (hrest x h)
      rcases hx with rfl | rfl
      · exact this.2.2.1 rfl
      · exact this.2.2.2 rfl
    | cons a t =>
      cases h
      have := hdigits x (by simp)
      rcases hx with rfl | rfl
      · exact absurd this (by decide)
      · exact absurd this (by decide)
  have hpos := @scan_run numByte [] (b :: t) rest (fun c hc => numByte_of_isDigit (hdigits c hc))
    fun c hc => (follows_small (hrest c hc)).2.1
  change scan numByte (b :: t ++ rest) 0 = (b :: t).length at hpos
  have hend : (b :: t ++ rest)[(b :: t).length]? ≠ some (ascii ':') := by
    rwa [List.getElem?_append_right (Nat.le_refl _), Nat.sub_self, ← List.head?_eq_getElem?]
  rw [lexStep_digit hb (hdigits b List.mem_cons_self) (hsecond _ (.inl rfl)) (hsecond _ (.inr rfl)),
    lexDigit_eq, hpos]
  unfold extend
  rw [if_neg hend, slice_ascii fun c hc => (follows_small (hrest c hc)).1]
  change (parseNumlike (b :: t) 0 >>= _) = _
  rw [hvalue]
  rfl

theorem Spelled.foreign (h : Spelled name v) : ∃ a ∈ utf8 name, Foreign a := by
  rcases h.named.initial with hi | hi
  · exact ⟨_, List.mem_of_head? hi, foreign_initial (.inl rfl)⟩
  · exact ⟨_, List.mem_of_head? hi, foreign_initial (.inr rfl)⟩

theorem lexStep_constant (hn : Spelled name v) (hrest : ∀ b ∈ rest.head?, Follows b = true)
    (hcolon : rest.head? ≠ some (ascii ':'))
    (hdash : ∀ a t, rest = ascii '-' :: a :: t → isAlpha a = false) :
    lexStep (utf8 name ++ rest) 0 = .ok (some ⟨.num v, 0⟩, (utf8 name).length) := by
  have hstop : wordLen rest = 0 := by
    cases rest with
    | nil => rfl
    | cons b rest =>
      have hword : ∀ b, Follows b = true → b ≠ ascii ':' →
          (isAlnum b || b == ascii '_' || b == ascii ':' || b == ascii '.') = false :=
        forall_byte (by decide)
      unfold wordLen
      rw [if_neg]
      rw [hword b (hrest b rfl) fun h => hcolon (by rw [h]; rfl), Bool.false_or]
      cases rest with
      | nil => simp
      | cons a t =>
        by_cases hb : b = ascii '-'
        · rw [hb] at hdash
          simp [hdash a t rfl]
        · simp [hb]
  have hlen : wordLen (utf8 name ++ rest) = (utf8 name).length := by
    rw [wordLen_whole hn.named.whole, hstop, Nat.add_zero]
  obtain ⟨a, ha, hforeign⟩ := hn.foreign
  have htoken : wordToken (utf8 name) = .num v := by
    unfold wordToken
    rw [fromStr_foreign hforeign ha, ite_self, parseMac_foreign hforeign ha, ite_self, hn.found]
  rw [lexStep_word hn.named.toWord, lexWord_ok hlen fun c hc => (follows_small (hrest c hc)).1, htoken]

/-- What the lexer makes of a word that goes on from a constant, or up to one, is unknown. -/
theorem spelled_unknown {w src : List UInt8} (hw : Word w) (hsrc : w <+: src)
    {a : UInt8} (ha : Foreign a) (hmem : a ∈ src.take (wordLen src))
    (hkeys : ∀ e ∈ keywords, utf8 e.1 ≠ src.take (wordLen src)) {ts : List Token}
    (h : spelled src = some ts) : ∃ t rest, ts = t :: rest ∧ known t = false := by
  obtain ⟨x, rfl⟩ := hsrc
  have hne : w ++ x ≠ [] := by
    obtain ⟨b, hb, -⟩ := hw.start
    obtain ⟨t, rfl⟩ := List.head?_eq_some_iff.mp hb
    simp
  cases hstep : lexStep (w ++ x) 0 with
  | error e =>
    unfold spelled at h
    rw [lexed_turn hne, hstep] at h
    cases h
  | ok turn =>
    rw [lexStep_word hw] at hstep
    have hturn := lexWord_token hstep
    rw [hturn, wordToken_ident ha hmem hkeys, ← lexStep_word hw] at hstep
    rw [spelled_turn hne hstep] at h
    obtain ⟨rest, -, rfl⟩ := Option.map_eq_some_iff.mp h
    exact ⟨_, rest, rfl, rfl⟩

end

/-! ### Interchange -/

/-- In what follows a constant its numeral, and its name if it is apart, is one token. -/
theorem spelled_constant {name : String} {v : UInt64} {rest : List UInt8} (h : Constant name v)
    (hrest : ∀ b ∈ rest.head?, Follows b = true) (hcolon : rest.head? ≠ some (ascii ':'))
    (hdash : ∀ a t, rest = ascii '-' :: a :: t → isAlpha a = false) :
    spelled (utf8 name ++ rest) = (spelled rest).map (.num v :: ·) ∧
      spelled (utf8 (toString v.toNat) ++ rest) = (spelled rest).map (.num v :: ·) := by
  obtain ⟨hn, hv⟩ := h.ok
  have hne : utf8 name ≠ [] := by
    intro hnil
    rcases hn.named.initial with hi | hi
    · rw [hnil] at hi
      cases hi
    · rw [hnil] at hi
      cases hi
  constructor
  · rw [spelled_turn (by simp [hne]) (lexStep_constant hn hrest hcolon hdash), List.drop_left]
  · rw [spelled_turn (fun h => hv.nonempty (List.append_eq_nil_iff.mp h).1) (lexStep_numeral hv hrest hcolon), List.drop_left]

section
variable {name : String} {v : UInt64} {u rest : List UInt8}

theorem alnum_name (hn : Spelled name v) : AlnumStart (utf8 name ++ rest) := by
  rcases hn.named.initial with hi | hi
  · obtain ⟨t, ht⟩ := List.head?_eq_some_iff.mp hi
    exact ⟨_, t ++ rest, by rw [ht]; rfl, by decide⟩
  · obtain ⟨t, ht⟩ := List.head?_eq_some_iff.mp hi
    exact ⟨_, t ++ rest, by rw [ht]; rfl, by decide⟩

theorem alnum_numeral (hv : Numeral v) : AlnumStart (utf8 (toString v.toNat) ++ rest) ∧
    ∀ b ∈ (utf8 (toString v.toNat) ++ rest).head?, isAlpha b = false := by
  obtain ⟨b, t, ht⟩ := List.exists_cons_of_ne_nil hv.nonempty
  have hdigit := hv.digits b (by rw [ht]; exact List.mem_cons_self)
  refine ⟨⟨b, t ++ rest, by rw [ht]; rfl, by simp [isAlnum, hdigit]⟩, fun c hc => ?_⟩
  rw [ht] at hc
  cases hc
  exact forall_byte (P := fun b => isDigit b = true → isAlpha b = false) (by decide) _ hdigit

/-- A word before the `-` swallows the name and comes out unknown. -/
theorem spelled_tied (h : Constant name v) (hup : WordUp u) {ts : List Token}
    (hts : spelled (u ++ ascii '-' :: (utf8 name ++ rest)) = some ts) : ∃ t ∈ ts, known t = false := by
  obtain ⟨s, w, front, -, hw, hlexed⟩ := hup
  obtain ⟨hn, -⟩ := h.ok
  obtain ⟨a, ha, hforeign⟩ := hn.foreign
  have hlen : wordLen (w ++ ascii '-' :: (utf8 name ++ rest)) =
      w.length + (1 + ((utf8 name).length + wordLen rest)) := by
    have hdash : wordLen (ascii '-' :: (utf8 name ++ rest)) = 1 + wordLen (utf8 name ++ rest) := by
      have halpha : ((utf8 name ++ rest).head?.map isAlpha).getD false = true := by
        rcases hn.named.initial with hi | hi <;> rw [List.head?_append, hi] <;> rfl
      rw [wordLen, if_pos (by rw [halpha]; rfl)]
    rw [wordLen_whole hw.whole, hdash, wordLen_whole hn.named.whole]
  have htake : w ++ ascii '-' :: utf8 name <+: (w ++ ascii '-' :: (utf8 name ++ rest)).take
      (wordLen (w ++ ascii '-' :: (utf8 name ++ rest))) := by
    refine List.prefix_take_iff.mpr ⟨⟨rest, by simp⟩, ?_⟩
    rw [hlen, List.length_append, List.length_cons]
    omega
  have hkeys : ∀ e ∈ keywords, utf8 e.1 ≠ (w ++ ascii '-' :: (utf8 name ++ rest)).take
      (wordLen (w ++ ascii '-' :: (utf8 name ++ rest))) := by
    intro e he heq
    refine (h.free he).2.2 (heq ▸ ?_)
    exact (List.suffix_append w _).isInfix.trans htake.isInfix
  unfold spelled at hts
  rw [hlexed _ (alnum_name hn), Option.map_map, Option.map_eq_some_iff] at hts
  obtain ⟨r, hr, rfl⟩ := hts
  obtain ⟨t, back, hback, hbad⟩ := @spelled_unknown w (w ++ ascii '-' :: (utf8 name ++ rest)) hw
    (List.prefix_append _ _) a hforeign (htake.mem (by simp [ha])) hkeys (words r)
    (by rw [spelled, hr]; rfl)
  refine ⟨t, ?_, hbad⟩
  have hmem : t ∈ words r := by simp [hback]
  obtain ⟨x, hx, rfl⟩ := List.mem_map.mp hmem
  simp only [Function.comp_apply, words, List.map_append, List.map_map, List.mem_append]
  exact .inr (List.mem_map.mpr ⟨x, hx, rfl⟩)

/-- A `:` or a `-` and a letter behind the name are swallowed, and it comes out unknown. -/
theorem spelled_absorbed (h : Constant name v) (habsorb : rest.head? = some (ascii ':') ∨
    ∃ a t, rest = ascii '-' :: a :: t ∧ isAlpha a = true) {ts : List Token}
    (hts : spelled (utf8 name ++ rest) = some ts) : ∃ t ∈ ts, known t = false := by
  obtain ⟨hn, -⟩ := h.ok
  obtain ⟨a, ha, hforeign⟩ := hn.foreign
  obtain ⟨c, t, rfl, hc, hlen⟩ : ∃ c t, rest = c :: t ∧ (c = ascii ':' ∨ c = ascii '-') ∧
      0 < wordLen (c :: t) := by
    rcases habsorb with h | ⟨a, t, rfl, halpha⟩
    · obtain ⟨t, rfl⟩ := List.head?_eq_some_iff.mp h
      refine ⟨_, t, rfl, .inl rfl, ?_⟩
      rw [wordLen, if_pos (by simp)]
      omega
    · refine ⟨_, a :: t, rfl, .inr rfl, ?_⟩
      rw [wordLen, if_pos (by simp [halpha])]
      omega
  have htake : utf8 name ++ [c] <+: (utf8 name ++ c :: t).take (wordLen (utf8 name ++ c :: t)) := by
    refine List.prefix_take_iff.mpr ⟨⟨t, by simp⟩, ?_⟩
    rw [wordLen_whole hn.named.whole, List.length_append, List.length_singleton]
    omega
  have hkeys : ∀ e ∈ keywords, utf8 e.1 ≠ (utf8 name ++ c :: t).take
      (wordLen (utf8 name ++ c :: t)) := by
    intro e he heq
    rcases hc with rfl | rfl
    · exact (h.free he).1 (heq ▸ htake)
    · exact (h.free he).2.1 (heq ▸ htake)
  obtain ⟨t, back, rfl, hbad⟩ := spelled_unknown hn.named.toWord (List.prefix_append _ _) hforeign
    (htake.mem (by simp [ha])) hkeys hts
  exact ⟨t, List.mem_cons_self, hbad⟩

/-- Behind a word and a `-`, a numeral gives three tokens. -/
theorem spelled_dash (hv : Numeral v) (hup : WordUp u) {ts : List Token}
    (hts : spelled (u ++ ascii '-' :: (utf8 (toString v.toNat) ++ rest)) = some ts) :
    ∃ s w front back, u = s ++ w ∧ ts = front ++ wordToken w :: .minus :: back := by
  obtain ⟨s, w, front, hu, hw, hlexed⟩ := hup
  obtain ⟨hstart, halpha⟩ := @alnum_numeral v rest hv
  unfold spelled at hts
  rw [hlexed _ hstart, Option.map_map, Option.map_eq_some_iff] at hts
  obtain ⟨r, hr, rfl⟩ := hts
  have hlen : wordLen (w ++ ascii '-' :: (utf8 (toString v.toNat) ++ rest)) = w.length := by
    rw [wordLen_seam (by decide) (.inr (.inr halpha)), hw.whole]
  have hword : lexStep (w ++ ascii '-' :: (utf8 (toString v.toNat) ++ rest)) 0 =
      .ok (some ⟨wordToken w, 0⟩, w.length) := by
    rw [lexStep_word hw]
    exact lexWord_ok hlen (by rintro b ⟨⟩; decide)
  have hminus : lexStep (ascii '-' :: (utf8 (toString v.toNat) ++ rest)) 0 =
      .ok (some ⟨.minus, 0⟩, 1) := lexStep_separator (by decide) (.inr hstart)
  have hall : spelled (w ++ ascii '-' :: (utf8 (toString v.toNat) ++ rest)) =
      (spelled (utf8 (toString v.toNat) ++ rest)).map (wordToken w :: .minus :: ·) := by
    rw [spelled_turn (by simp) hword, List.drop_left, spelled_turn (by simp) hminus,
      List.drop_succ_cons, List.drop_zero, Option.map_map]
    rfl
  have hwords : spelled (w ++ ascii '-' :: (utf8 (toString v.toNat) ++ rest)) = some (words r) := by
    rw [spelled, hr]
    rfl
  rw [hall, Option.map_eq_some_iff] at hwords
  obtain ⟨back, -, hback⟩ := hwords
  refine ⟨s, w, words front, back, hu, ?_⟩
  rw [hback]
  simp [words, shift]

/-- A constant ties what comes behind it with a `-`. -/
def Tied (before : List UInt8) : Prop :=
  ∃ name v, Constant name v ∧ utf8 name ++ [ascii '-'] <:+ before

/-- Where a constant may stand, lexing splits, but if a word runs up to a `-` there. -/
theorem precedes_cases {c : UInt8} (hc : Precedes c = true) :
    ((∀ x, AlnumStart x → Splits u c x) ∧ (lexed (u ++ [c]) = none ∨ ¬ Tied (u ++ [c]))) ∨
      (c = ascii '-' ∧ WordUp u) := by
  by_cases hdash : c = ascii '-'
  · rw [hdash]
    rcases lexed_dash u with ⟨hsplit, hnone⟩ | hup
    · refine .inl ⟨hsplit, hnone.imp_right fun hnone => ?_⟩
      rintro ⟨name, v, h, q, hq⟩
      rw [← List.append_assoc] at hq
      exact hnone q (utf8 name) h.ok.1.named (List.append_inj_left' hq rfl).symm
    · exact .inr ⟨rfl, hup⟩
  · refine .inl ⟨fun x hx => lexed_seam hc hx (.inl hdash), .inr ?_⟩
    rintro ⟨name, v, -, q, hq⟩
    rw [← List.append_assoc] at hq
    exact hdash (List.cons.inj (List.append_inj_right' hq rfl)).1.symm

end

/-- A named constant and its numeral are interchangeable where the constant stands apart, and
only there, if the filter with the numeral is accepted at all. -/
theorem constants_interchangeable (pre suf name : String) (v : UInt64) (h : Constant name v)
    (hpre : ∃ b ∈ (utf8 pre).getLast?, Precedes b = true)
    (hsuf : ∃ b ∈ (utf8 suf).head?, Follows b = true) :
    (Apart (utf8 pre) (utf8 suf) →
      outcome (pre ++ name ++ suf) = outcome (pre ++ toString v.toNat ++ suf)) ∧
    ((outcome (pre ++ toString v.toNat ++ suf)).isSome = true →
      outcome (pre ++ name ++ suf) = outcome (pre ++ toString v.toNat ++ suf) →
        Apart (utf8 pre) (utf8 suf)) := by
  obtain ⟨c, hlast, hc⟩ := hpre
  obtain ⟨b, hhead, hb⟩ := hsuf
  have hrest : ∀ b ∈ (utf8 suf).head?, Follows b = true := by
    intro b' hb'
    rw [Option.mem_def, Option.mem_def.mp hhead] at hb'
    cases hb'
    exact hb
  obtain ⟨hn, hv⟩ := h.ok
  obtain ⟨u, hu⟩ := List.getLast?_eq_some_iff.mp hlast
  have hbytes : ∀ mid : String, utf8 (pre ++ mid ++ suf) = u ++ c :: (utf8 mid ++ utf8 suf) := by
    intro mid
    rw [utf8_append, utf8_append, hu]
    simp
  rw [hu]
  rcases @precedes_cases u c hc with ⟨hsplit, hfree⟩ | ⟨rfl, hup⟩
  · have hname := spelled_splits (hsplit _ (@alnum_name name v (utf8 suf) hn))
    have hnum := spelled_splits (hsplit _ (@alnum_numeral v (utf8 suf) hv).1)
    rw [← hbytes] at hname hnum
    constructor
    · intro hapart
      obtain ⟨h₁, h₂⟩ := spelled_constant h hrest hapart.colon hapart.dash
      exact outcome_spelled (by rw [hname, hnum, h₁, h₂])
    · intro hsome hsame
      have hkept : ¬ ((utf8 suf).head? = some (ascii ':') ∨
          ∃ a t, utf8 suf = ascii '-' :: a :: t ∧ isAlpha a = true) := by
        intro habsorb
        rw [← hsame, outcome_unknown] at hsome
        · cases hsome
        · intro ts hts
          rw [hname] at hts
          obtain ⟨front, -, hts⟩ := Option.bind_eq_some_iff.mp hts
          obtain ⟨back, hback, rfl⟩ := Option.map_eq_some_iff.mp hts
          obtain ⟨t, ht, hbad⟩ := spelled_absorbed h habsorb hback
          exact ⟨t, List.mem_append_right front ht, hbad⟩
      refine ⟨fun name' v' h' htied => ?_, fun hcolon => hkept (.inl hcolon), fun a t hdash => ?_⟩
      · rcases hfree with hnone | hfree
        · obtain ⟨ts, hts, -⟩ := outcome_fine hsome
          rw [hnum, spelled, hnone] at hts
          cases hts
        · exact hfree ⟨name', v', h', htied⟩
      · cases halpha : isAlpha a with
        | false => rfl
        | true => exact absurd (.inr ⟨a, t, hdash, halpha⟩) hkept
  · have hname : outcome (pre ++ name ++ suf) = none :=
      outcome_unknown fun ts hts => spelled_tied h hup (hbytes name ▸ hts)
    constructor
    · intro hapart
      rw [hname]
      cases hout : outcome (pre ++ toString v.toNat ++ suf) with
      | none => rfl
      | some e =>
        obtain ⟨ts, hts, -, harms⟩ := @outcome_fine (pre ++ toString v.toNat ++ suf) (by rw [hout]; rfl)
        rw [hbytes] at hts
        obtain ⟨s, w, front, back, hu', rfl⟩ := spelled_dash hv hup hts
        obtain ⟨name', v', h', rfl⟩ := wordToken_arms (harms front _ back rfl)
        exact absurd ⟨s, by rw [hu', List.append_assoc]⟩ (hapart.tied name' v' h')
    · intro hsome hsame
      rw [← hsame, hname] at hsome
      cases hsome

/-- In front of a blank, `tcpflags` may stand for 13. -/
theorem constants_interchangeable_flags : outcome ("tcp[" ++ "tcpflags" ++ " :1] = 2") =
    outcome ("tcp[" ++ toString (13 : UInt64).toNat ++ " :1] = 2") := by
  have htable : ("tcpflags", Token.num 13) ∈ keywords := by decide
  have hseams := constants_interchangeable "tcp[" " :1] = 2" "tcpflags" 13 htable
    ⟨_, rfl, by decide⟩ ⟨_, rfl, by decide⟩
  refine hseams.1 ⟨fun name v _ ⟨s, h⟩ => ?_, by decide, fun a t h => ?_⟩
  · have hlast := congrArg List.getLast? h
    rw [← List.append_assoc, List.getLast?_append] at hlast
    change some (ascii '-') = _ at hlast
    exact absurd hlast (by decide)
  · have hhead := congrArg List.head? h
    change _ = some (ascii '-') at hhead
    exact absurd hhead (by decide)

/-- In front of the `:` of a size it is swallowed by a word that nothing knows, where 13 is the
offset of one byte. -/
theorem constant_swallowed : Constant "tcpflags" 13 ∧
    outcome ("tcp[" ++ "tcpflags" ++ ":1] = 2") = none ∧
    outcome ("tcp[" ++ toString (13 : UInt64).toNat ++ ":1] = 2") =
      some (.primitive (.byteAccess ⟨.trans, 13, .byte, [], .eq, .const 2⟩)) := by
  have hname : lex ("tcp[" ++ "tcpflags" ++ ":1] = 2") = .ok [⟨.tcp, 0⟩, ⟨.lBracket, 3⟩,
      ⟨.ident "tcpflags:1", 4⟩, ⟨.rBracket, 14⟩, ⟨.eq, 16⟩, ⟨.num 2, 18⟩] := by decide
  have hnum : lex ("tcp[" ++ toString (13 : UInt64).toNat ++ ":1] = 2") = .ok [⟨.tcp, 0⟩,
      ⟨.lBracket, 3⟩, ⟨.num 13, 4⟩, ⟨.colon, 6⟩, ⟨.num 1, 7⟩, ⟨.rBracket, 8⟩, ⟨.eq, 10⟩,
      ⟨.num 2, 12⟩] := by decide
  refine ⟨(by decide : ("tcpflags", Token.num 13) ∈ keywords), ?_, ?_⟩
  · rw [outcome_lexed hname]
    decide
  · rw [outcome_lexed hnum]
    decide +kernel

end PktBaffle.Proofs.Constants
