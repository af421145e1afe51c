import PktBaffle.Proofs.Parser.Passage

namespace PktBaffle.Proofs.Parser
open PktBaffle.Lexer Parsing

/-! ### Steps that read no `and` and no `or` -/

/-- The words that direction qualifiers share with the logical operators. -/
def isLogical : Token → Bool
  | .and | .or => true
  | _ => false

theorem isLogical_iff {t : Token} : isLogical t = true ↔ t = .and ∨ t = .or := by
  cases t <;> simp [isLogical]

/-- A table that knows neither word. -/
theorem not_logical {α : Type} {f : Token → Option α} (hand : (f .and).isSome = false)
    (hor : (f .or).isSome = false) {t : Token} {a : α} (h : f t = some a) :
    isLogical t = false := by
  cases hl : isLogical t with
  | false => rfl
  | true =>
    rcases isLogical_iff.mp hl with rfl | rfl
    · rw [h] at hand
      cases hand
    · rw [h] at hor
      cases hor

/-- Neither `and` nor `or` stands from `i` up to `j`. -/
def Plain (tokens : List Spanned) (i j : Nat) : Prop :=
  ∀ k t, i ≤ k → k < j → tokAt tokens k = some t → isLogical t = false

theorem Plain.append {tokens : List Spanned} {i j k : Nat} (h : Plain tokens i j)
    (h' : Plain tokens j k) : Plain tokens i k := by
  intro n t hi hk ht
  rcases Nat.lt_or_ge n j with hj | hj
  · exact h n t hi hj ht
  · exact h' n t hj hk ht

theorem Plain.refl {tokens : List Spanned} {i : Nat} : Plain tokens i i :=
  fun _ _ hi hj => absurd hj (Nat.not_lt.mpr hi)

theorem Plain.one {tokens : List Spanned} {i : Nat} {t : Token} (ht : tokAt tokens i = some t)
    (hl : isLogical t = false) : Plain tokens i (i + 1) := by
  intro k u hi hk hu
  obtain rfl : k = i := by omega
  rw [ht] at hu
  cases hu
  exact hl

def QuietAt {α : Type} (m : Parse α) (p : Parser) : Prop :=
  ∀ a q, m p = .ok (a, q) → q.tokens = p.tokens ∧ p.pos ≤ q.pos ∧ Plain p.tokens p.pos q.pos

/-- A step that reads neither `and` nor `or` when it succeeds. -/
def Quiet {α : Type} (m : Parse α) : Prop := ∀ p, QuietAt m p

section
variable {α β : Type} {p : Parser}

theorem QuietAt.bind {m : Parse α} {f : α → Parse β} (hm : QuietAt m p)
    (hf : ∀ a q, m p = .ok (a, q) → QuietAt (f a) q) : QuietAt (m >>= f) p := by
  intro b r hb
  change (m p).bind (fun s => f s.1 s.2) = _ at hb
  cases hrun : m p with
  | error e =>
    rw [hrun] at hb
    cases hb
  | ok s =>
    rw [hrun] at hb
    obtain ⟨htokens, hle, hplain⟩ := hm s.1 s.2 hrun
    obtain ⟨htokens', hle', hplain'⟩ := hf s.1 s.2 hrun b r hb
    rw [htokens] at htokens' hplain'
    exact ⟨htokens', hle.trans hle', hplain.append hplain'⟩

theorem Quiet.bind {m : Parse α} {f : α → Parse β} (hm : Quiet m) (hf : ∀ a, Quiet (f a)) :
    Quiet (m >>= f) := fun p => (hm p).bind fun a q _ => hf a q

theorem Quiet.pure {a : α} : Quiet (pure a : Parse α) := by
  intro p b q h
  cases h
  exact ⟨rfl, le_rfl, Plain.refl⟩

theorem Quiet.throw {e : Error} : Quiet (throw e : Parse α) := by
  intro p b q h
  cases h

theorem Quiet.err {message : String} : Quiet (err message : Parse α) := Quiet.throw

theorem Quiet.looks {f : Option Token → Parse α}
    (h : ∀ (p : Parser) (t : Option Token), tok p = t → QuietAt (f t) p) :
    Quiet (Parsing.curTok >>= f) := fun p => h p (tok p) rfl

theorem QuietAt.looks {f : Option Token → Parse α} {t : Option Token} (ht : tok p = t)
    (h : QuietAt (f t) p) : QuietAt (Parsing.curTok >>= f) p := by
  subst ht
  exact h

/-- Stepping over a token that is there and is neither of the two. -/
theorem QuietAt.skip {f : Option Token → Parse α} {t : Token} (ht : tok p = some t)
    (hl : isLogical t = false) (hf : Quiet (f (some t))) : QuietAt (advance >>= f) p := by
  intro b r hb
  rw [advance_bind ht] at hb
  obtain ⟨htokens, hle, hplain⟩ := hf (next p) b r hb
  exact ⟨htokens, (Nat.le_succ _).trans hle, (Plain.one ht hl).append hplain⟩

end

instance : Admits calm fun _ => True where
  calm _ h := h
  arms _ _ := trivial

/-- A step that reads calm tokens only is quiet. -/
theorem Passes.quiet {α : Type} {m : Parse α} (h : Passes calm (fun _ => True) m) : Quiet m := by
  intro p a q hm
  obtain ⟨htokens, hle, hfine⟩ := (h p).reads a q hm
  refine ⟨htokens, hle, fun k t hi hj ht => ?_⟩
  obtain ⟨u, hu, hcalm, -⟩ := hfine k hi hj
  rw [ht] at hu
  cases hu
  cases t <;> first | rfl | cases hcalm

/-! ### The qualifier -/

/-- The four direction qualifiers, from `i` up to `j`. -/
inductive Qualifier (tokens : List Spanned) (i : Nat) : Nat → Dir → Prop where
  | src (h : tokAt tokens i = some .src) : Qualifier tokens i (i + 1) .src
  | dst (h : tokAt tokens i = some .dst) : Qualifier tokens i (i + 1) .dst
  | srcAndDst (h : tokAt tokens i = some .src) (hop : tokAt tokens (i + 1) = some .and)
      (hdst : tokAt tokens (i + 2) = some .dst) : Qualifier tokens i (i + 3) .srcAndDst
  | srcOrDst (h : tokAt tokens i = some .src) (hop : tokAt tokens (i + 1) = some .or)
      (hdst : tokAt tokens (i + 2) = some .dst) : Qualifier tokens i (i + 3) .srcOrDst

/-- `and` or `or` follows the `src` at `i`, but `dst` does not follow that. -/
def Stray (tokens : List Spanned) (i : Nat) : Prop :=
  tokAt tokens i = some .src ∧
    (tokAt tokens (i + 1) = some .and ∨ tokAt tokens (i + 1) = some .or) ∧
    tokAt tokens (i + 2) ≠ some .dst

/-- What `parse_dir` takes a `src` at `i` and the tokens behind it for, and where it ends. -/
def srcDir (tokens : List Spanned) (i : Nat) : Dir × Nat :=
  if tokAt tokens (i + 1) = some .and then
    if tokAt tokens (i + 2) = some .dst then (.srcAndDst, i + 3)
    else if tokAt tokens (i + 2) = some .or then
      if tokAt tokens (i + 3) = some .dst then (.srcOrDst, i + 4) else (.src, i + 3)
    else (.src, i + 2)
  else if tokAt tokens (i + 1) = some .or then
    if tokAt tokens (i + 2) = some .dst then (.srcOrDst, i + 3) else (.src, i + 2)
  else (.src, i + 1)

section
variable {tokens : List Spanned} {i d : Nat}

theorem parseDir_or {j : Nat} : (do
      if (← eat .or) && (← curTok) = some .dst then
        let _ ← advance
        return Dir.srcOrDst
      else return Dir.src : Parse Dir) ⟨tokens, j, d⟩ =
    if tokAt tokens j = some .or then
      if tokAt tokens (j + 1) = some .dst then .ok (.srcOrDst, ⟨tokens, j + 2, d⟩)
      else .ok (.src, ⟨tokens, j + 1, d⟩)
    else .ok (.src, ⟨tokens, j, d⟩) := by
  change (eat .or ⟨tokens, j, d⟩).bind _ = _
  rw [eat_run, tok_at]
  split
  · change (if (true && decide (tokAt tokens (j + 1) = some .dst)) = true then _ else _ :
      Parse Dir) ⟨tokens, j + 1, d⟩ = _
    rw [Bool.true_and]
    by_cases hd : tokAt tokens (j + 1) = some .dst
    · rw [if_pos (decide_eq_true hd), if_pos hd]
      exact advance_bind (p := ⟨tokens, j + 1, d⟩) hd _
    · rw [if_neg (by simpa using hd), if_neg hd]
      rfl
  · rfl

theorem parseDir_src (h : tokAt tokens i = some .src) :
    parseDir ⟨tokens, i, d⟩ =
      .ok ((srcDir tokens i).1, ⟨tokens, (srcDir tokens i).2, d⟩) := by
  unfold parseDir
  rw [bind_curTok, tok_at, h]
  change (advance >>= fun _ => _ : Parse Dir) ⟨tokens, i, d⟩ = _
  rw [advance_bind (p := ⟨tokens, i, d⟩) h]
  change (eat .and ⟨tokens, i + 1, d⟩).bind _ = _
  rw [eat_run, tok_at]
  unfold srcDir
  by_cases hand : tokAt tokens (i + 1) = some .and
  · rw [if_pos hand, if_pos hand]
    change (if (true && decide (tokAt tokens (i + 2) = some .dst)) = true then _ else _ :
      Parse Dir) ⟨tokens, i + 2, d⟩ = _
    rw [Bool.true_and]
    by_cases hd : tokAt tokens (i + 2) = some .dst
    · rw [if_pos (decide_eq_true hd), if_pos hd]
      exact advance_bind (p := ⟨tokens, i + 2, d⟩) hd _
    · rw [if_neg (by simpa using hd), if_neg hd]
      refine parseDir_or.trans ?_
      split
      · split <;> rfl
      · rfl
  · rw [if_neg hand, if_neg hand]
    refine parseDir_or.trans ?_
    split
    · split <;> rfl
    · rfl

theorem parseDir_dst (h : tokAt tokens i = some .dst) :
    parseDir ⟨tokens, i, d⟩ = .ok (.dst, ⟨tokens, i + 1, d⟩) := by
  unfold parseDir
  rw [bind_curTok, tok_at, h]
  exact advance_bind (p := ⟨tokens, i, d⟩) h _

theorem parseDir_none (hsrc : tokAt tokens i ≠ some .src) (hdst : tokAt tokens i ≠ some .dst) :
    parseDir ⟨tokens, i, d⟩ = .ok (.srcOrDst, ⟨tokens, i, d⟩) := by
  unfold parseDir
  rw [bind_curTok, tok_at]
  generalize tokAt tokens i = t at hsrc hdst
  split
  · exact absurd rfl hsrc
  · exact absurd rfl hdst
  · rfl

theorem Stray.reads (h : Stray tokens i) : i + 2 ≤ (srcDir tokens i).2 := by
  obtain ⟨-, hand | hor, hd⟩ := h
  · unfold srcDir
    rw [if_pos hand, if_neg hd]
    split
    · split
      · simp
      · simp
    · simp
  · unfold srcDir
    rw [if_neg (by rw [hor]; simp), if_pos hor, if_neg hd]

/-- What stands behind `src` decides whether `parse_dir` reads one of the four qualifiers. -/
theorem srcDir_qualifier (h : tokAt tokens i = some .src) :
    Qualifier tokens i (srcDir tokens i).2 (srcDir tokens i).1 ↔ ¬ Stray tokens i := by
  unfold srcDir Stray
  by_cases hand : tokAt tokens (i + 1) = some .and
  · rw [if_pos hand]
    by_cases hd : tokAt tokens (i + 2) = some .dst
    · rw [if_pos hd]
      exact iff_of_true (.srcAndDst h hand hd) fun hs => hs.2.2 hd
    · rw [if_neg hd]
      refine iff_of_false (fun hq => ?_) fun hs => hs ⟨h, .inl hand, hd⟩
      split at hq
      · split at hq
        · cases hq
        · cases hq
      · cases hq
  · rw [if_neg hand]
    by_cases hor : tokAt tokens (i + 1) = some .or
    · rw [if_pos hor]
      by_cases hd : tokAt tokens (i + 2) = some .dst
      · rw [if_pos hd]
        exact iff_of_true (.srcOrDst h hor hd) fun hs => hs.2.2 hd
      · rw [if_neg hd]
        refine iff_of_false (fun hq => ?_) fun hs => hs ⟨h, .inr hor, hd⟩
        cases hq
    · rw [if_neg hor]
      exact iff_of_true (.src h) fun hs => hs.2.1.elim hand hor

/-- Every `and` and `or` from `i` up to `j` is the middle of a `src and dst` or `src or dst`. -/
def Qualified (tokens : List Spanned) (i j : Nat) : Prop :=
  ∀ k t, i ≤ k → k < j → tokAt tokens k = some t → isLogical t = true →
    i < k ∧ k + 1 < j ∧ tokAt tokens (k - 1) = some .src ∧ tokAt tokens (k + 1) = some .dst

theorem Plain.qualified {j : Nat} (h : Plain tokens i j) : Qualified tokens i j := by
  intro k t hi hj ht hl
  rw [h k t hi hj ht] at hl
  cases hl

theorem Qualifier.qualified {m n j : Nat} {dir : Dir} (h : Qualifier tokens m n dir)
    (hi : i ≤ m) (hn : n ≤ j) (hbefore : Plain tokens i m) (hafter : Plain tokens n j) :
    Qualified tokens i j := by
  have hmiddle : ∀ op, tokAt tokens m = some .src → tokAt tokens (m + 1) = some op →
      tokAt tokens (m + 2) = some .dst → n = m + 3 → Qualified tokens i j := by
    rintro op hsrc hop hdst rfl k t hk hkj ht hl
    rcases Nat.lt_trichotomy k (m + 1) with hlt | rfl | hgt
    · have hplain : Plain tokens i (m + 1) := hbefore.append (Plain.one hsrc rfl)
      rw [hplain k t hk hlt ht] at hl
      cases hl
    · exact ⟨by omega, by omega, hsrc, hdst⟩
    · have hplain : Plain tokens (m + 2) j := (Plain.one hdst rfl).append hafter
      rw [hplain k t hgt hkj ht] at hl
      cases hl
  cases h with
  | src h => exact (hbefore.append ((Plain.one h rfl).append hafter)).qualified
  | dst h => exact (hbefore.append ((Plain.one h rfl).append hafter)).qualified
  | srcAndDst h hop hdst => exact hmiddle _ h hop hdst rfl
  | srcOrDst h hop hdst => exact hmiddle _ h hop hdst rfl

/-- A primitive whose direction stands at `m`, and which reads nothing of the two words but
there. -/
theorem qualified_dir {m n j : Nat} {dir : Dir} (hi : i ≤ m)
    (hrun : parseDir ⟨tokens, m, 0⟩ = .ok (dir, ⟨tokens, n, 0⟩)) (hn : n ≤ j)
    (hbefore : Plain tokens i m) (hafter : Plain tokens n j) :
    Qualified tokens i j ↔ ¬ Stray tokens m := by
  by_cases hsrc : tokAt tokens m = some .src
  · rw [parseDir_src hsrc] at hrun
    obtain ⟨rfl, rfl⟩ : (srcDir tokens m).1 = dir ∧ (srcDir tokens m).2 = n := by
      simpa using hrun
    refine ⟨fun hq hs => ?_, fun hs =>
      ((srcDir_qualifier hsrc).mpr hs).qualified hi hn hbefore hafter⟩
    have hreads := hs.reads
    obtain ⟨-, hop, hd⟩ := hs
    rcases hop with hop | hop
    · exact hd (hq (m + 1) _ (by omega) (by omega) hop rfl).2.2.2
    · exact hd (hq (m + 1) _ (by omega) (by omega) hop rfl).2.2.2
  · refine iff_of_true ?_ fun hs => hsrc hs.1
    by_cases hdst : tokAt tokens m = some .dst
    · rw [parseDir_dst hdst] at hrun
      cases hrun
      exact (Qualifier.dst hdst).qualified hi hn hbefore hafter
    · rw [parseDir_none hsrc hdst] at hrun
      cases hrun
      exact (hbefore.append hafter).qualified

theorem quiet_parsePrimitive (hsrc : tokAt tokens i ≠ some .src) (hdst : tokAt tokens i ≠ some .dst)
    (hether : tokAt tokens i ≠ some .ether) : QuietAt parsePrimitive ⟨tokens, i, 0⟩ := by
  unfold parsePrimitive
  cases ht : tokAt tokens i with
  | none => exact QuietAt.looks ht (Quiet.err _)
  | some t =>
    refine QuietAt.looks ht ?_
    have hskip : ∀ f : Option Token → Parse Primitive, isLogical t = false → Quiet (f (some t)) →
        QuietAt (advance >>= f) ⟨tokens, i, 0⟩ := fun f hl hf => QuietAt.skip ht hl hf
    cases t with
    | src => exact absurd ht hsrc
    | dst => exact absurd ht hdst
    | ether => exact absurd ht hether
    | less | greater => exact hskip _ rfl passes_parseLen.quiet
    | len => exact hskip _ rfl (passes_parseCmpop.quiet.bind fun _ => passes_parseLen.quiet)
    | ip => exact hskip _ rfl passes_parseIpPrim.quiet
    | ip6 => exact hskip _ rfl passes_parseIp6Prim.quiet
    | icmp | icmp6 => exact hskip _ rfl (passes_byteAccessOr Passes.pure).quiet
    | sctp => exact hskip _ rfl (passes_portOr Passes.pure).quiet
    | tcp | udp => exact hskip _ rfl (passes_byteAccessOr (passes_portOr Passes.pure)).quiet
    | proto => exact hskip _ rfl (passes_parseU32.quiet.bind fun _ => Quiet.pure)
    | vlan | mpls => exact hskip _ rfl (passes_optNum.quiet.bind fun _ => Quiet.pure)
    | pppoes => exact hskip _ rfl passes_parsePppoes.quiet
    | gateway => exact hskip _ rfl passes_then_err.quiet
    | host => exact hskip _ rfl passes_parseHost.quiet
    | net => exact hskip _ rfl passes_parseNet.quiet
    | port => exact hskip _ rfl passes_parsePort.quiet
    | portRange => exact hskip _ rfl passes_parsePortrange.quiet
    | ipv4 _ parts => exact (Passes.ite Passes.err passes_parseHost).quiet _
    | ipv6 => exact passes_parseHost.quiet _
    | lBracket => exact passes_parseByteAccess.quiet _
    | broadcast | multicast | arp | rarp | igmp | ah | esp | pim | igrp | vrrp | pppoed
    | inbound | outbound => exact hskip _ rfl Quiet.pure
    | _ => exact Quiet.err _

theorem parseDir_ok (tokens : List Spanned) (m : Nat) :
    ∃ dir n, parseDir ⟨tokens, m, 0⟩ = .ok (dir, ⟨tokens, n, 0⟩) := by
  by_cases hsrc : tokAt tokens m = some .src
  · exact ⟨_, _, parseDir_src hsrc⟩
  · by_cases hdst : tokAt tokens m = some .dst
    · exact ⟨_, _, parseDir_dst hdst⟩
    · exact ⟨_, _, parseDir_none hsrc hdst⟩

/-- A direction and a step that reads nothing of the two words. -/
theorem dir_then {f : Dir → Parse Primitive} (hf : ∀ dir, Quiet (f dir)) {m j : Nat}
    {x : Primitive} (hi : i ≤ m) (hbefore : Plain tokens i m)
    (h : (parseDir >>= f) ⟨tokens, m, 0⟩ = .ok (x, ⟨tokens, j, 0⟩)) :
    Qualified tokens i j ↔ ¬ Stray tokens m := by
  obtain ⟨dir, n, hdir⟩ := parseDir_ok tokens m
  change (parseDir ⟨tokens, m, 0⟩).bind (fun r => f r.1 r.2) = _ at h
  rw [hdir] at h
  obtain ⟨-, hle, hafter⟩ := hf dir _ _ _ h
  exact qualified_dir hi hdir hle hbefore hafter

theorem etherArg_qualified {m j : Nat} {x : Primitive} (hi : i ≤ m) (hbefore : Plain tokens i m)
    (h : parseEtherArg ⟨tokens, m, 0⟩ = .ok (x, ⟨tokens, j, 0⟩)) :
    Qualified tokens i j ↔ ¬ Stray tokens m := by
  unfold parseEtherArg at h
  rw [bind_curTok, tok_at] at h
  by_cases hbracket : tokAt tokens m = some .lBracket
  · rw [if_pos hbracket] at h
    obtain ⟨-, -, hafter⟩ := passes_parseByteAccess.quiet _ _ _ h
    refine iff_of_true (hbefore.append hafter).qualified fun hs => ?_
    rw [hs.1] at hbracket
    cases hbracket
  · rw [if_neg hbracket] at h
    refine dir_then (fun dir => ?_) hi hbefore h
    refine Quiet.looks fun p t ht => ?_
    rcases t with _ | t
    · exact Quiet.err p
    have hskip : ∀ f : Option Token → Parse Primitive, isLogical t = false → Quiet (f (some t)) →
        QuietAt (advance >>= f) p := fun f hl hf => QuietAt.skip ht hl hf
    cases t with
    | host => exact hskip _ rfl (passes_parseMacAddr.quiet.bind fun _ => Quiet.pure)
    | mac => exact (passes_parseMacAddr.quiet.bind fun _ => Quiet.pure) p
    | proto =>
      refine hskip _ rfl (Quiet.looks fun q u hu => ?_)
      split
      · rename_i et het
        obtain ⟨v, rfl, hv⟩ := Option.bind_eq_some_iff.mp het
        exact QuietAt.skip hu (not_logical rfl rfl hv) Quiet.pure
      · exact (passes_parseU32.quiet.bind fun _ => Quiet.pure) q
    | broadcast | multicast | ip | ip6 | arp | rarp => exact hskip _ rfl Quiet.pure
    | _ => exact Quiet.err p

/-- Where the direction of a primitive stands that begins at `i`. -/
def dirPos (tokens : List Spanned) (i : Nat) : Nat :=
  if tokAt tokens i = some .ether then i + 1 else i

theorem primitive_qualified {j : Nat} {x : Primitive}
    (h : parsePrimitive ⟨tokens, i, 0⟩ = .ok (x, ⟨tokens, j, 0⟩)) :
    Qualified tokens i j ↔ ¬ Stray tokens (dirPos tokens i) := by
  by_cases hether : tokAt tokens i = some .ether
  · rw [dirPos, if_pos hether]
    unfold parsePrimitive at h
    rw [bind_curTok, tok_at, hether] at h
    change (advance >>= fun _ => parseEtherArg) _ = _ at h
    rw [advance_bind (p := ⟨tokens, i, 0⟩) hether] at h
    exact etherArg_qualified (Nat.le_succ _) (Plain.one hether rfl) h
  rw [dirPos, if_neg hether]
  by_cases hdir : tokAt tokens i = some .src ∨ tokAt tokens i = some .dst
  · refine @dir_then _ _ parseAfterDir (fun dir => passes_parseAfterDir.quiet) _ _ x le_rfl Plain.refl ?_
    unfold parsePrimitive at h
    rw [bind_curTok, tok_at] at h
    rcases hdir with hd | hd
    · rw [hd] at h
      exact h
    · rw [hd] at h
      exact h
  · rw [not_or] at hdir
    obtain ⟨-, -, hplain⟩ := quiet_parsePrimitive hdir.1 hdir.2 hether _ _ h
    exact iff_of_true hplain.qualified fun hs => hdir.1 hs.1

end

/-- `parse_dir` reads one of the four qualifiers exactly where no `and` or `or` strays behind the
`src`. A filter it accepts has no `and` or `or` beside its logical operators and its qualifiers
exactly if none strays behind the `src` of a primitive. -/
theorem direction_qualifiers (tokens : List Spanned) :
    (∀ i d, tokAt tokens i = some .src ∨ tokAt tokens i = some .dst →
      ((∃ dir j, parseDir ⟨tokens, i, d⟩ = .ok (dir, ⟨tokens, j, d⟩) ∧
        Qualifier tokens i j dir) ↔ ¬ Stray tokens i)) ∧
    ∀ e, EveryPrimitive tokens (fun i j _ => Qualified tokens i j) e ↔
      EveryPrimitive tokens (fun i _ _ => ¬ Stray tokens (dirPos tokens i)) e := by
  refine ⟨fun i d h => ?_, fun e => everyPrimitive_congr fun i j x hx => primitive_qualified hx⟩
  rcases h with hsrc | hdst
  · rw [← srcDir_qualifier hsrc]
    refine ⟨fun ⟨dir, j, hrun, hq⟩ => ?_, fun hq => ⟨_, _, parseDir_src hsrc, hq⟩⟩
    rw [parseDir_src hsrc] at hrun
    obtain ⟨rfl, rfl⟩ : (srcDir tokens i).1 = dir ∧ (srcDir tokens i).2 = j := by
      simpa using hrun
    exact hq
  · refine iff_of_true ⟨_, _, parseDir_dst hdst, .dst hdst⟩ fun hs => ?_
    rw [hs.1] at hdst
    cases hdst

theorem direction_qualifiers_src : ∃ dir j,
    parseDir ⟨[⟨.src, 0⟩, ⟨.host, 4⟩], 0, 0⟩ = .ok (dir, ⟨[⟨.src, 0⟩, ⟨.host, 4⟩], j, 0⟩) ∧
      Qualifier [⟨.src, 0⟩, ⟨.host, 4⟩] 0 j dir := by
  refine ((direction_qualifiers _).1 0 0 (.inl rfl)).mpr ?_
  rintro ⟨-, h | h, -⟩
  · cases h
  · cases h

/-- The tokens of `src and host 10.0.0.1`. -/
def srcAndHost : List Spanned :=
  [⟨.src, 0⟩, ⟨.and, 4⟩, ⟨.host, 8⟩, ⟨.ipv4 #v[10, 0, 0, 1] 4, 13⟩]

/-- The `and` is read and lost: the filter is taken for `src host 10.0.0.1`. -/
theorem stray_and_lost :
    lex "src and host 10.0.0.1" = .ok srcAndHost ∧
      parse srcAndHost = .ok (.primitive (.host (.v4 0x0a000001) .src)) ∧
      parseDir ⟨srcAndHost, 0, 0⟩ = .ok (.src, ⟨srcAndHost, 2, 0⟩) ∧
      ¬ Qualified srcAndHost 0 4 := by
  refine ⟨rfl, by decide +kernel, rfl, fun h => ?_⟩
  exact absurd (h 1 .and (by decide) (by decide) rfl rfl).2.2.2 (by decide)

end PktBaffle.Proofs.Parser
