import PktBaffle.Proofs.Classic.Compositional

namespace PktBaffle.Proofs.Classic
open Bpf Forward PktBaffle.Classic PktBaffle.Optimizer PktBaffle.Proofs.Optimizer
open PktBaffle.Proofs.Fields

/-- A field at or behind the network header. -/
def inLayer (l : ByteLoad) : Prop := l.layer ≠ .raw ∧ 0 ≤ l.offset.toInt

/-- A leaf that reads the addresses in front of the ethertype, or only what is behind it: no tag
test, no length, and no byte access that counts from the start of the frame. -/
def Inside : Primitive → Prop
  | .vlan _ => False
  | .etherProto et => et ≠ 0x8100
  | .len .. => False
  | .byteAccess ba => inLayer (lhs ba) ∧ ∀ l, ba.rhs = .load l → inLayer l
  | _ => True

section Leaves

variable {p : Primitive} {e : Expr} {et : UInt32}

theorem Inside.not_vlan (h : Inside p) : p.isVlan = false := by
  cases p with
  | vlan id => exact h.elim
  | _ => rfl

theorem inside_vlanFree (h : ∀ p ∈ e.leaves, Inside p) : e.vlanFree :=
  fun p hp => (h p hp).not_vlan

/-- Nothing inside asks for a second tag. -/
theorem Inside.guard (h : Inside p) : guardOf p ≠ .ethertype 0x8100 := by
  have ports : ∀ proto, portsGuard proto ≠ .ethertype 0x8100 := by
    intro proto hp
    unfold portsGuard at hp
    cases hset : l4setFor proto <;> rw [hset] at hp <;> cases hp
  have ether : ∀ a : UInt32, a ≠ 0x8100 → Guard.ethertype a ≠ .ethertype 0x8100 :=
    fun a ha he => ha (Guard.ethertype.inj he)
  cases p with
  | proto q =>
    cases q with
    | ip => exact ether 0x0800 (by decide)
    | ip6 => exact ether 0x86dd (by decide)
    | arp => exact ether 0x0806 (by decide)
    | rarp => exact ether 0x8035 (by decide)
    | _ =>
      intro hg
      cases hg
  | host addr dir =>
    cases addr with
    | v4 a => exact ether 0x0800 (by decide)
    | v6 a => exact ether 0x86dd (by decide)
  | net n dir => exact ether 0x0800 (by decide)
  | net6 n dir => exact ether 0x86dd (by decide)
  | port port dir proto => exact ports proto
  | portRange lo hi dir proto => exact ports proto
  | etherProto et =>
    refine ether _ fun he => h ?_
    exact UInt16.toNat_inj.mp (congrArg UInt32.toNat he)
  | ipBroadcast => exact ether 0x0800 (by decide)
  | ipMulticast => exact ether 0x0800 (by decide)
  | ip6Multicast => exact ether 0x86dd (by decide)
  | vlan id => exact h.elim
  | pppoeDiscovery => exact ether 0x8863 (by decide)
  | pppoeSession id => exact ether 0x8864 (by decide)
  | len op value => exact h.elim
  | etherHost | etherMulticast | mpls | byteAccess | ipProtoChain | ip6ProtoChain | inbound
    | outbound =>
    intro hg
    cases hg

theorem primitiveGuards_ether (h : (primitiveGuards p).ethertype = some 0x8100) : ¬ Inside p := by
  rw [primitiveGuards_eq] at h
  intro hin
  have hg := hin.guard
  generalize guardOf p = g at h hg
  cases g with
  | ethertype et =>
    have he : et = 0x8100 := Option.some.inj h
    exact hg (by rw [he])
  | none => cases h
  | ip4 n => exact absurd (Option.some.inj h) (by decide)
  | ip6 n => exact absurd (Option.some.inj h) (by decide)
  | ports want => cases h

theorem required_ether (h : (required e).ethertype = some et) :
    ∃ p ∈ e.leaves, (primitiveGuards p).ethertype = some et := by
  induction e with
  | primitive p => exact ⟨p, List.mem_cons_self, h⟩
  | and l r hl hr =>
    rcases or_eq_some h with h | h
    · obtain ⟨p, hp, hg⟩ := hl h
      exact ⟨p, List.mem_append_left _ hp, hg⟩
    · obtain ⟨p, hp, hg⟩ := hr h
      exact ⟨p, List.mem_append_right _ hp, hg⟩
  | or l r hl _ =>
    obtain ⟨p, hp, hg⟩ := hl (both_eq h).1
    exact ⟨p, List.mem_append_left _ hp, hg⟩
  | not e _ => cases h

theorem frontGuards_inside {mode : HoistMode} {l r : Expr} {link : LinkType}
    (h : ∀ p ∈ (Expr.or l r).leaves, Inside p) :
    ∀ g ∈ frontGuards mode l r link, g ≠ .ethertype 0x8100 := by
  intro g hg
  cases mode with
  | plain => exact absurd hg List.not_mem_nil
  | hoist =>
    rintro rfl
    simp only [frontGuards, hoisted, List.mem_append, Option.mem_toList, Option.map_eq_some_iff,
      reduceCtorEq, and_false, exists_false, or_false] at hg
    split at hg
    · simp only [Option.mem_toList, Option.map_eq_some_iff] at hg
      obtain ⟨et, he, heq⟩ := hg
      rw [Guard.ethertype.inj heq] at he
      obtain ⟨p, hp, hpg⟩ := required_ether (e := .or l r) he
      exact primitiveGuards_ether hpg (h p hp)
    · cases hg

end Leaves

/-- Behind an outer tag: the pinned ethertype is that of the tag, and every other fact was
recorded at the depth of the inner header. -/
structure Behind (ctx : Ctx) (tags : Tags) : Prop where
  depth : ctx.vlanDepth = 1
  ether : ctx.facts.ethertype = some 0x8100
  ip4 : ctx.facts.ip4Proto ≠ none → tags.ip4 = 1
  ip6 : ctx.facts.ip6Nh ≠ none → tags.ip6 = 1
  ports : ctx.facts.portsReady ≠ none → tags.ports = 1

section Behind

variable {pkt : Vm.Packet} {mode : HoistMode} {ctx : Ctx} {tags : Tags} {g : Guard}

/-- What a guard records it records here. -/
theorem Behind.guard (h : Behind ctx tags) (g : Guard) :
    Behind (asmGuard g ctx).2 (guardTags g ctx tags) where
  depth := (asmGuard_frame g ctx).2.trans h.depth
  ether := asmGuard_kept g h.ether
  ip4 hn := by
    simp only [guardTags, retag, h.depth]
    split
    · rename_i he
      exact h.ip4 (he ▸ hn)
    · rfl
  ip6 hn := by
    simp only [guardTags, retag, h.depth]
    split
    · rename_i he
      exact h.ip6 (he ▸ hn)
    · rfl
  ports hn := by
    simp only [guardTags, retag, h.depth]
    split
    · rename_i he
      exact h.ports (he ▸ hn)
    · rfl

theorem Behind.guards (h : Behind ctx tags) (gs : List Guard) :
    Behind (asmGuards gs ctx).2 (guardsTags gs ctx tags) := by
  induction gs generalizing ctx tags with
  | nil => exact h
  | cons g gs ih => exact ih (h.guard g)

theorem Behind.restore {ctx' : Ctx} (h : Behind ctx tags) (hd : ctx'.vlanDepth = 1) :
    Behind (ctx'.restore ctx) tags where
  depth := hd
  ether := (restore_ethertype ctx' ctx).trans h.ether
  ip4 := by
    unfold Ctx.restore
    dsimp only
    split <;> exact h.ip4
  ip6 := by
    unfold Ctx.restore
    dsimp only
    split <;> exact h.ip6
  ports := by
    unfold Ctx.restore
    dsimp only
    split
    · exact fun hn => absurd rfl hn
    · exact h.ports

/-- Code that writes X only takes the port prologue away. -/
theorem Behind.after (h : Behind ctx tags) (c : Code) : Behind (ctx.after c) tags := by
  by_cases hq : quiet c
  · rw [after_quiet ctx hq]
    exact h
  · have hf := after_loud ctx hq
    refine ⟨(Ctx.after_vlanDepth ctx c).trans h.depth, ?_, ?_, ?_, ?_⟩ <;> rw [hf]
    · exact h.ether
    · exact h.ip4
    · exact h.ip6
    · exact fun hn => absurd rfl hn

/-- No ethertype test but one for a second tag is left out. -/
theorem Behind.ethertype_skips (h : Behind ctx tags) {et : UInt32} (he : et ≠ 0x8100) :
    (asmEthertype et ctx).1.skips = [] := by
  unfold asmEthertype
  split
  · have hne : ctx.facts.ethertype ≠ some et := by
      rw [h.ether]
      exact fun hs => he (Option.some.inj hs).symm
    rw [if_neg hne]
  · rfl

theorem Behind.freshGuard (h : Behind ctx tags) (hg : g ≠ .ethertype 0x8100) :
    freshGuard pkt g ctx tags := by
  have ether : ∀ et, et ≠ 0x8100 → Fresh (asmEthertype et ctx).1.skips tags := by
    intro et he sk hsk
    rw [h.ethertype_skips he] at hsk
    cases hsk
  cases g with
  | none => trivial
  | ethertype et => exact ether et fun he => hg (by rw [he])
  | ip4 n =>
    have hskip : (asmEthertype 0x0800 ctx).1.skips = [] := h.ethertype_skips (by decide)
    refine ⟨ether _ (by decide), fun _ sk hsk => ?_⟩
    have hdepth : sk.depth = ctx.vlanDepth := asmGuard_skips (.ip4 n) ctx sk hsk
    obtain ⟨v, hv⟩ := asmEthertype_facts 0x0800 ctx
    simp only [asmIp4L4] at hsk
    split at hsk
    · rename_i hk
      simp only [Piece.append, hskip, List.nil_append,
        Piece.skip, List.map_cons, List.map_nil, List.mem_singleton] at hsk
      rw [hdepth, h.depth, hsk]
      rw [hv] at hk
      have hfact : ctx.facts.ip4Proto = some n := hk
      exact h.ip4 (by rw [hfact]; exact Option.some_ne_none n)
    · simp [Piece.append, hskip] at hsk
  | ip6 n =>
    have hskip : (asmEthertype 0x86dd ctx).1.skips = [] := h.ethertype_skips (by decide)
    refine ⟨ether _ (by decide), fun _ sk hsk => ?_⟩
    have hdepth : sk.depth = ctx.vlanDepth := asmGuard_skips (.ip6 n) ctx sk hsk
    obtain ⟨v, hv⟩ := asmEthertype_facts 0x86dd ctx
    simp only [asmIp6L4] at hsk
    split at hsk
    · rename_i hk
      simp only [Piece.append, hskip, List.nil_append,
        Piece.skip, List.map_cons, List.map_nil, List.mem_singleton] at hsk
      rw [hdepth, h.depth, hsk]
      rw [hv] at hk
      have hfact : ctx.facts.ip6Nh = some n := hk
      exact h.ip6 (by rw [hfact]; exact Option.some_ne_none n)
    · simp [Piece.append, hskip] at hsk
  | ports want =>
    intro sk hsk
    have hdepth : sk.depth = ctx.vlanDepth := asmPortPrereqs_skips want ctx sk hsk
    have dual : (asmPortPrologue want ctx).1.skips = [] := by
      unfold asmPortPrologue
      simp +decide [h.ether]
    simp only [asmPortPrereqs] at hsk
    split at hsk
    · rename_i ready hready
      split at hsk
      · simp only [Piece.skip, List.mem_singleton] at hsk
        rw [hdepth, h.depth, hsk]
        exact h.ports (by simp [hready])
      · rw [dual] at hsk
        cases hsk
    · rw [dual] at hsk
      cases hsk

theorem Behind.freshGuards (h : Behind ctx tags) {gs : List Guard}
    (hg : ∀ g ∈ gs, g ≠ .ethertype 0x8100) : freshGuards pkt gs ctx tags := by
  induction gs generalizing ctx tags with
  | nil => trivial
  | cons g gs ih =>
    exact ⟨h.freshGuard (hg g List.mem_cons_self),
      fun _ => ih (h.guard g) fun g' hg' => hg g' (List.mem_cons_of_mem _ hg')⟩

/-- Where two arms meet, what both know was recorded at the depth of the inner header. -/
theorem Behind.meet {f₁ f₂ : Facts} (hd : ctx.vlanDepth = 1) (h₁ : f₁.ethertype = some 0x8100)
    (h₂ : f₂.ethertype = some 0x8100) {ctx' : Ctx} (h : Behind ctx' tags)
    (hf : ctx'.facts = f₁ ∨ ctx'.facts = f₂) : Behind { ctx with facts := f₁.meet f₂ } tags where
  depth := hd
  ether := by simp only [Facts.meet, h₁, h₂, both, if_true]
  ip4 hn := by
    obtain ⟨n, hn⟩ := Option.ne_none_iff_exists'.mp hn
    obtain ⟨ha, hb⟩ := both_eq hn
    refine h.ip4 ?_
    rcases hf with hf | hf <;> simp [hf, ha, hb]
  ip6 hn := by
    obtain ⟨n, hn⟩ := Option.ne_none_iff_exists'.mp hn
    obtain ⟨ha, hb⟩ := both_eq hn
    refine h.ip6 ?_
    rcases hf with hf | hf <;> simp [hf, ha, hb]
  ports hn := by
    refine h.ports ?_
    simp only [Facts.meet] at hn
    split at hn
    · rename_i a b ha hb
      rcases hf with hf | hf <;> simp [hf, ha, hb]
    · exact absurd rfl hn

/-- Inside, no check is left out because of a fact of the outer header: by induction on the
expression, whatever the packet. -/
theorem Behind.fresh {e : Expr} (h : Behind ctx tags) (hin : ∀ p ∈ e.leaves, Inside p) :
    FreshOn pkt mode e ctx tags ∧ Behind (asm mode e ctx).2 (exprTags pkt mode e ctx tags) := by
  induction e generalizing ctx tags with
  | primitive p =>
    have hp := hin p List.mem_cons_self
    exact ⟨h.freshGuard hp.guard, (h.guard (guardOf p)).after _⟩
  | and l r hl hr =>
    obtain ⟨hinl, hinr⟩ := List.forall_mem_append.mp hin
    obtain ⟨hf₁, hb₁⟩ := hl h hinl
    have hlead : leadsVlan l = false := leadsVlan_vlanFree (inside_vlanFree hinl)
    have hright : andRight mode l ctx = (asm mode l ctx).2 := by
      simp only [andRight, hlead, Ctx.bump]
      rfl
    have hb : Behind (andRight mode l ctx) (exprTags pkt mode l ctx tags) := by
      rw [hright]
      exact hb₁
    obtain ⟨hf₂, hb₂⟩ := hr hb hinr
    refine ⟨⟨hf₁, fun _ => hf₂⟩, ?_⟩
    have hasm : (asm mode (.and l r) ctx).2 = (asm mode r (andRight mode l ctx)).2 := by
      simp only [asm, andRight, hlead, Ctx.unbump]
      rfl
    rw [hasm]
    exact hb₂
  | or l r hl hr =>
    obtain ⟨hinl, hinr⟩ := List.forall_mem_append.mp hin
    have hgs : ∀ g ∈ frontGuards mode l r ctx.link, g ≠ .ethertype 0x8100 := frontGuards_inside hin
    have h₀ := h.guards (frontGuards mode l r ctx.link)
    have hentry : Behind (orEntry mode l r ctx)
        (guardsTags (frontGuards mode l r ctx.link) ctx tags) := h₀
    obtain ⟨hf₁, hb₁⟩ := hl hentry hinl
    have hright : Behind (orRight mode l r ctx)
        (guardsTags (frontGuards mode l r ctx.link) ctx tags) := hentry.restore hb₁.depth
    obtain ⟨hf₂, hb₂⟩ := hr hright hinr
    refine ⟨⟨h.freshGuards hgs, fun _ => ⟨hf₁, fun _ => hf₂⟩⟩, ?_⟩
    have hasm : (asm mode (.or l r) ctx).2 = { (asm mode r (orRight mode l r ctx)).2 with
        facts := (asm mode l (orEntry mode l r ctx)).2.facts.meet
          (asm mode r (orRight mode l r ctx)).2.facts } := rfl
    rw [hasm]
    simp only [exprTags]
    split
    · exact Behind.meet hb₂.depth hb₁.ether hb₂.ether hb₁ (.inl rfl)
    · exact Behind.meet hb₂.depth hb₁.ether hb₂.ether hb₂ (.inr rfl)
  | not e ih =>
    obtain ⟨hf, hb⟩ := ih h hin
    exact ⟨hf, h.restore hb.depth⟩

end Behind

/-- The packet without its outer tag: the ethertype of the tag and the tag itself are gone. -/
def untagged (link : LinkType) (pkt : Vm.Packet) : Vm.Packet :=
  match link.etherProtoOffset with
  | some off => pkt.take off ++ pkt.drop (off + 4)
  | none => pkt

section Fields

variable {pkt : Vm.Packet} {link : LinkType} {off n w : Nat}

/-- Behind the cut everything stands four bytes earlier. -/
theorem drop_untagged (ho : link.etherProtoOffset = some off) (h : off ≤ n) :
    (untagged link pkt).drop n = pkt.drop (n + 4) := by
  rw [untagged, ho]
  rw [List.drop_append, List.drop_eq_nil_of_le (by rw [List.length_take]; omega), List.nil_append,
    List.drop_drop, List.length_take]
  rcases Nat.le_total off pkt.length with hle | hle
  · rw [Nat.min_eq_left hle]
    congr 1
    omega
  · rw [List.drop_eq_nil_of_le (by omega), List.drop_eq_nil_of_le (by omega)]

/-- In front of it nothing has moved. -/
theorem number_front (ho : link.etherProtoOffset = some off) (h : n + w ≤ off) :
    number (untagged link pkt) n w = number pkt n w := by
  have hlen : n + w ≤ (untagged link pkt).length ↔ n + w ≤ pkt.length := by
    rw [untagged, ho]
    simp only [List.length_append, List.length_take, List.length_drop]
    omega
  unfold number
  by_cases hle : n + w ≤ pkt.length
  · rw [if_pos (hlen.mpr hle), if_pos hle, untagged, ho]
    have htake : ((pkt.take off ++ pkt.drop (off + 4)).drop n).take w = (pkt.drop n).take w := by
      rw [List.drop_append_of_le_length (by rw [List.length_take]; omega),
        List.take_append_of_le_length (by rw [List.length_drop, List.length_take]; omega),
        List.drop_take, List.take_take, Nat.min_eq_left (by omega)]
    rw [htake]
  · rw [if_neg fun hl => hle (hlen.mp hl), if_neg hle]

variable {j k : UInt32}

theorem byte_untagged (ho : link.etherProtoOffset = some off) (hk : off ≤ k.toNat)
    (hj : j.toNat = k.toNat + 4) : Vm.byte (untagged link pkt) k = Vm.byte pkt j := by
  simp only [Vm.byte, drop_untagged ho hk, hj]

theorem half_untagged (ho : link.etherProtoOffset = some off) (hk : off ≤ k.toNat)
    (hj : j.toNat = k.toNat + 4) : Vm.half (untagged link pkt) k = Vm.half pkt j := by
  simp only [Vm.half, drop_untagged ho hk, hj]

theorem word_untagged (ho : link.etherProtoOffset = some off) (hk : off ≤ k.toNat)
    (hj : j.toNat = k.toNat + 4) : Vm.word (untagged link pkt) k = Vm.word pkt j := by
  simp only [Vm.word, drop_untagged ho hk, hj]

theorem sized_untagged (ho : link.etherProtoOffset = some off) (hk : off ≤ k.toNat)
    (hj : j.toNat = k.toNat + 4) (size : AccessSize) :
    sizedVal (untagged link pkt) size k = sizedVal pkt size j := by
  cases size with
  | byte => exact byte_untagged ho hk hj
  | half => exact half_untagged ho hk hj
  | word => exact word_untagged ho hk hj

theorem toNat_injective : Function.Injective UInt32.toNat := fun _ _ h => UInt32.toNat_inj.mp h

theorem byte_front (ho : link.etherProtoOffset = some off) (h : k.toNat + 1 ≤ off) :
    Vm.byte (untagged link pkt) k = Vm.byte pkt k := by
  apply Option.map_injective toNat_injective
  rw [byte_number, byte_number, number_front ho h]

theorem half_front (ho : link.etherProtoOffset = some off) (h : k.toNat + 2 ≤ off) :
    Vm.half (untagged link pkt) k = Vm.half pkt k := by
  apply Option.map_injective toNat_injective
  rw [half_number, half_number, number_front ho h]

theorem word_front (ho : link.etherProtoOffset = some off) (h : k.toNat + 4 ≤ off) :
    Vm.word (untagged link pkt) k = Vm.word pkt k := by
  apply Option.map_injective toNat_injective
  rw [word_number, word_number, number_front ho h]

end Fields

section Values

variable {pkt : Vm.Packet} {link : LinkType} {off n : Nat} (ho : link.etherProtoOffset = some off)
include ho

theorem ether_bounds : 12 ≤ off ∧ off ≤ 14 ∧ link.netOffset = off + 2 := by
  cases link with
  | ethernet =>
    cases ho
    decide
  | linuxSll =>
    cases ho
    decide
  | rawIp => cases ho

theorem byteAt_untagged (h : off ≤ n) (hn : n + 4 < 2 ^ 32) :
    Vm.byte (untagged link pkt) (.ofNat n) = Vm.byte pkt (.ofNat (n + 4)) := by
  refine byte_untagged ho ?_ ?_
  · rwa [toNat_ofNat (by omega)]
  · rw [toNat_ofNat hn, toNat_ofNat (by omega)]

theorem halfAt_untagged (h : off ≤ n) (hn : n + 4 < 2 ^ 32) :
    halfAt (untagged link pkt) n = halfAt pkt (n + 4) := by
  refine half_untagged ho ?_ ?_
  · rwa [toNat_ofNat (by omega)]
  · rw [toNat_ofNat hn, toNat_ofNat (by omega)]

theorem wordAt_untagged (h : off ≤ n) (hn : n + 4 < 2 ^ 32) :
    wordAt (untagged link pkt) n = wordAt pkt (n + 4) := by
  refine word_untagged ho ?_ ?_
  · rwa [toNat_ofNat (by omega)]
  · rw [toNat_ofNat hn, toNat_ofNat (by omega)]

theorem netAt_inner : netAt link 1 = netAt link 0 + 4 ∧ off ≤ netAt link 0 ∧ netAt link 0 ≤ 16 := by
  obtain ⟨-, hhi, hnet⟩ := ether_bounds ho
  refine ⟨?_, ?_, ?_⟩
  · rw [netAt, netAt, Nat.one_mul, Nat.zero_mul, Nat.add_zero]
  · rw [netAt]
    omega
  · rw [netAt]
    omega

theorem etherVal_untagged (et : UInt32) :
    etherVal (untagged link pkt) link 0 et = etherVal pkt link 1 et := by
  obtain ⟨-, hhi, -⟩ := ether_bounds ho
  simp only [etherVal, etherAt, ho, Option.map_some]
  have hhalf : halfAt (untagged link pkt) off = halfAt pkt (off + 4) :=
    halfAt_untagged ho (Nat.le_refl off) (by omega)
  simp only [halfAt] at hhalf
  rw [Nat.zero_mul, Nat.add_zero, hhalf, Nat.one_mul]

theorem ip4Val_untagged (n : UInt8) :
    ip4Val (untagged link pkt) link 0 n = ip4Val pkt link 1 n := by
  obtain ⟨hnet, hlo, hhi⟩ := netAt_inner ho
  rw [ip4Val, ip4Val, byteAt_untagged ho (by omega) (by omega), hnet,
    Nat.add_right_comm]

theorem ip6Val_untagged (n : UInt8) :
    ip6Val (untagged link pkt) link 0 n = ip6Val pkt link 1 n := by
  obtain ⟨hnet, hlo, hhi⟩ := netAt_inner ho
  rw [ip6Val, ip6Val, byteAt_untagged ho (by omega) (by omega), hnet,
    Nat.add_right_comm]

theorem l4Val_untagged (want : L4Set) (h : off ≤ n) (hn : n + 4 < 2 ^ 32) :
    l4Val (untagged link pkt) n want = l4Val pkt (n + 4) want := by
  rw [l4Val, l4Val, byteAt_untagged ho h hn]

theorem ihl_untagged : ihl (untagged link pkt) link 0 = ihl pkt link 1 := by
  obtain ⟨hnet, hlo, hhi⟩ := netAt_inner ho
  rw [ihl, ihl, byteAt_untagged ho hlo (by omega), hnet]

theorem ports4_untagged (want : L4Set) :
    ports4 (untagged link pkt) link 0 want = ports4 pkt link 1 want := by
  obtain ⟨hnet, hlo, hhi⟩ := netAt_inner ho
  have hfrag : fragVal (untagged link pkt) link 0 = fragVal pkt link 1 := by
    have hhalf : halfAt (untagged link pkt) (netAt link 0 + 6) = halfAt pkt (netAt link 0 + 6 + 4) :=
      halfAt_untagged ho (by omega) (by omega)
    simp only [halfAt] at hhalf
    rw [fragVal, fragVal, hhalf, hnet, Nat.add_right_comm]
  rw [ports4, ports4, hfrag, ihl_untagged ho, l4Val_untagged ho want (by omega) (by omega), hnet,
    Nat.add_right_comm]

theorem ports6_untagged (want : L4Set) :
    ports6 (untagged link pkt) link 0 want = ports6 pkt link 1 want := by
  obtain ⟨hnet, hlo, hhi⟩ := netAt_inner ho
  rw [ports6, ports6, l4Val_untagged ho want (by omega) (by omega), hnet, Nat.add_right_comm]

theorem ether_half_untagged : Vm.half (untagged link pkt) (.ofNat off) =
    Vm.half pkt (.ofNat (off + 4)) := by
  obtain ⟨-, hhi, -⟩ := ether_bounds ho
  exact halfAt_untagged ho (Nat.le_refl off) (by omega)

theorem portsVal_untagged (want : L4Set) :
    portsVal (untagged link pkt) link 0 want = portsVal pkt link 1 want := by
  simp only [portsVal, etherAt, ho, Option.map_some, Nat.zero_mul, Nat.add_zero, Nat.one_mul,
    ether_half_untagged ho, ports4_untagged ho, ports6_untagged ho]

theorem portsX_untagged : portsX (untagged link pkt) link 0 = portsX pkt link 1 := by
  simp only [portsX, etherAt, ho, Option.map_some, Nat.zero_mul, Nat.add_zero, Nat.one_mul,
    ether_half_untagged ho, ihl_untagged ho]

/-- A guard asks the untagged packet what it asks the tagged one behind the tag. -/
theorem guardVal_untagged (g : Guard) :
    guardVal (untagged link pkt) link 0 g = guardVal pkt link 1 g := by
  cases g with
  | none => rfl
  | ethertype et => exact etherVal_untagged ho et
  | ip4 n => simp only [guardVal, etherVal_untagged ho, ip4Val_untagged ho]
  | ip6 n => simp only [guardVal, etherVal_untagged ho, ip6Val_untagged ho]
  | ports want => exact portsVal_untagged ho want

omit ho in
theorem addrVal_congr {f g : Nat → Option UInt32} {s s' d d' : Nat} (k : UInt32)
    (hs : f s = g s') (hd : f d = g d') (dir : Dir) : addrVal f k s d dir = addrVal g k s' d' dir := by
  cases dir <;> simp only [addrVal, hs, hd]

omit ho in
theorem bothVal_congr {f g : Nat → Tri} {s s' d d' a a' b b' : Nat} (hs : f s = g s')
    (hd : f d = g d') (ha : f a = g a') (hb : f b = g b') (dir : Dir) :
    bothVal f s d a b dir = bothVal g s' d' a' b' dir := by
  cases dir <;> simp only [bothVal, hs, hd, ha, hb]

theorem segsVal_untagged (i : Nat) (segs : List UInt16) (h : off ≤ n)
    (hn : n + (i + segs.length) * 2 + 4 < 2 ^ 32) :
    segsVal (untagged link pkt) n i segs = segsVal pkt (n + 4) i segs := by
  induction segs generalizing i with
  | nil => rfl
  | cons seg segs ih =>
    rw [List.length_cons] at hn
    rw [segsVal, segsVal, ih (i + 1) (by omega), halfAt_untagged ho (by omega) (by omega),
      Nat.add_right_comm]

theorem net6Val_untagged (len i : Nat) (segs : List UInt16) (h : off ≤ n)
    (hn : n + (i + segs.length) * 2 + 4 < 2 ^ 32) :
    net6Val (untagged link pkt) len n i segs = net6Val pkt len (n + 4) i segs := by
  induction segs generalizing i with
  | nil => rfl
  | cons seg segs ih =>
    rw [List.length_cons] at hn
    rw [net6Val, net6Val, ih (i + 1) (by omega), halfAt_untagged ho (by omega) (by omega),
      Nat.add_right_comm]

theorem portAt_untagged {x : UInt32} (hx : x.toNat ≤ 60) (h : off ≤ n) (hn : n + 64 < 2 ^ 32) :
    portAt (untagged link pkt) x n = portAt pkt x (n + 4) := by
  have hk : (x + .ofNat n).toNat = x.toNat + n := by
    rw [UInt32.toNat_add, toNat_ofNat (by omega), Nat.mod_eq_of_lt (by omega)]
  have hj : (x + .ofNat (n + 4)).toNat = x.toNat + (n + 4) := by
    rw [UInt32.toNat_add, toNat_ofNat (by omega), Nat.mod_eq_of_lt (by omega)]
  exact half_untagged ho (by omega) (by omega)

theorem mplsVal_untagged (label : Option UInt32) :
    mplsVal (untagged link pkt) label off = mplsVal pkt label (off + 4) := by
  obtain ⟨-, hhi, -⟩ := ether_bounds ho
  have hhalf : halfAt (untagged link pkt) off = halfAt pkt (off + 4) :=
    halfAt_untagged ho (Nat.le_refl off) (by omega)
  have hword : wordAt (untagged link pkt) (off + 2) = wordAt pkt (off + 2 + 4) :=
    wordAt_untagged ho (by omega) (by omega)
  simp only [mplsVal, hhalf, hword, Nat.add_right_comm]

omit ho in
theorem nibble_le (b : UInt32) : (4 * (b &&& 0xf)).toNat ≤ 60 := by
  have hm : (b &&& 0xf).toNat ≤ 15 := by
    rw [UInt32.toNat_and]
    exact Nat.and_le_right
  have h4 : (4 : UInt32).toNat = 4 := rfl
  rw [UInt32.toNat_mul, h4]
  omega

theorem layerVal_untagged {l : ByteLoad} (h : inLayer l) (hlo : off ≤ n) (hhi : n ≤ 16) :
    layerVal (untagged link pkt) n l.layer l.offset.toUInt32 l.size =
      layerVal pkt (n + 4) l.layer l.offset.toUInt32 l.size := by
  obtain ⟨hraw, hpos⟩ := h
  have hsmall : l.offset.toUInt32.toNat < 2 ^ 31 := by
    have hlt : l.offset.toInt < 2 ^ 31 := Int32.toInt_lt l.offset
    have hmax := l.offset.toUInt32.toNat_lt
    rcases toInt_toUInt32 l.offset with ht | ht <;> omega
  generalize l.offset.toUInt32 = o at hsmall
  cases hl : l.layer with
  | raw => exact absurd hl hraw
  | net =>
    simp only [layerVal, reduceCtorEq, if_false, layerOffset]
    refine sized_untagged ho ?_ ?_ l.size
    · rw [toNat_ofNat (by omega)]
      omega
    · rw [toNat_ofNat (by omega), toNat_ofNat (by omega)]
      omega
  | trans =>
    simp only [layerVal, if_true]
    rw [byteAt_untagged ho hlo (by omega)]
    refine congrArg _ (funext fun b => ?_)
    have hb := nibble_le b
    have hadd : ∀ m, m < 2 ^ 32 - 60 →
        (4 * (b &&& 0xf) + .ofNat m).toNat = (4 * (b &&& 0xf)).toNat + m := by
      intro m hm
      rw [UInt32.toNat_add, toNat_ofNat (by omega), Nat.mod_eq_of_lt (by omega)]
    refine sized_untagged ho ?_ ?_ l.size
    · rw [hadd _ (by omega)]
      omega
    · rw [hadd _ (by omega), hadd _ (by omega)]
      omega

omit ho in
theorem portsX_le (d : Nat) : (portsX pkt link d).toNat ≤ 60 := by
  have hihl : ((ihl pkt link d).getD 0).toNat ≤ 60 := by
    unfold ihl
    cases Vm.byte pkt (.ofNat (netAt link d)) with
    | none => exact Nat.zero_le _
    | some b => exact nibble_le b
  unfold portsX
  split
  · exact hihl
  · split
    · decide
    · exact hihl

/-- Behind its guard too, a leaf asks the same of the untagged packet. -/
theorem bodyVal_untagged {p : Primitive} (h : Inside p) {x : UInt32} (hx : x.toNat ≤ 60) :
    bodyVal (untagged link pkt) p link 0 x = bodyVal pkt p link 1 x := by
  obtain ⟨hether, hetherhi, -⟩ := ether_bounds ho
  obtain ⟨hnet, hlo, hhi⟩ := netAt_inner ho
  have h₀ : link.netOffset + 0 * 4 = netAt link 0 := rfl
  have h₁ : link.netOffset + 1 * 4 = netAt link 0 + 4 := hnet
  have word : ∀ d, d ≤ 100 → wordAt (untagged link pkt) (netAt link 0 + d) =
      wordAt pkt (netAt link 0 + 4 + d) := by
    intro d hd
    rw [wordAt_untagged ho (by omega) (by omega), Nat.add_right_comm]
  have segs : ∀ a : Ipv6Addr, a.segments.toList.length = 8 := fun a => Vector.length_toList
  cases p with
  | host addr dir =>
    cases addr with
    | v4 a =>
      simp only [bodyVal, h₀, h₁]
      exact addrVal_congr _ (word 12 (by omega)) (word 16 (by omega)) dir
    | v6 a =>
      simp only [bodyVal, h₀, h₁]
      have hseg : ∀ d, d ≤ 100 → segsVal (untagged link pkt) (netAt link 0 + d) 0 a.segments.toList =
          segsVal pkt (netAt link 0 + 4 + d) 0 a.segments.toList := by
        intro d hd
        rw [segsVal_untagged ho 0 _ (by omega) (by rw [segs]; omega), Nat.add_right_comm]
      exact bothVal_congr (hseg 8 (by omega)) (hseg 24 (by omega)) (hseg 8 (by omega))
        (hseg 24 (by omega)) dir
  | net m dir =>
    simp only [bodyVal, h₀, h₁]
    refine addrVal_congr _ ?_ ?_ dir
    · rw [word 12 (by omega)]
    · rw [word 16 (by omega)]
  | net6 m dir =>
    simp only [bodyVal, h₀, h₁]
    have hseg : ∀ d, d ≤ 100 →
        net6Val (untagged link pkt) m.prefixLen.toNat (netAt link 0 + d) 0 m.addr.segments.toList =
          net6Val pkt m.prefixLen.toNat (netAt link 0 + 4 + d) 0 m.addr.segments.toList := by
      intro d hd
      rw [net6Val_untagged ho _ 0 _ (by omega) (by rw [segs]; omega), Nat.add_right_comm]
    exact bothVal_congr (hseg 8 (by omega)) (hseg 24 (by omega)) (hseg 8 (by omega))
      (hseg 24 (by omega)) dir
  | port port dir proto =>
    simp only [bodyVal, h₀, h₁]
    refine addrVal_congr _ (portAt_untagged ho hx hlo (by omega)) ?_ dir
    rw [portAt_untagged ho hx (by omega) (by omega), Nat.add_right_comm]
  | portRange lo hi dir proto =>
    simp only [bodyVal, h₀, h₁]
    have hrange : ∀ d, d ≤ 100 → rangeVal (untagged link pkt) lo hi x (netAt link 0 + d) =
        rangeVal pkt lo hi x (netAt link 0 + 4 + d) := by
      intro d hd
      rw [rangeVal, rangeVal, portAt_untagged ho hx (by omega) (by omega), Nat.add_right_comm]
    exact bothVal_congr (hrange 0 (by omega)) (hrange 2 (by omega)) (hrange 0 (by omega))
      (hrange 2 (by omega)) dir
  | etherHost addr dir =>
    simp only [bodyVal]
    have hmac : ∀ n, n + 6 ≤ 12 → macVal (untagged link pkt) addr n = macVal pkt addr n := by
      intro n hn
      rw [macVal, macVal, wordAt, word_front ho (by rw [toNat_ofNat (by omega)]; omega), halfAt,
        half_front ho (by rw [toNat_ofNat (by omega)]; omega), wordAt, halfAt]
    exact bothVal_congr (hmac 6 (by omega)) (hmac 0 (by omega)) (hmac 0 (by omega))
      (hmac 6 (by omega)) dir
  | etherMulticast =>
    have hzero : (0 : UInt32).toNat = 0 := rfl
    simp only [bodyVal]
    rw [byte_front ho (by omega)]
  | ipBroadcast => simp only [bodyVal, h₀, h₁, word 16 (by omega)]
  | ipMulticast => simp only [bodyVal, h₀, h₁, word 16 (by omega)]
  | ip6Multicast =>
    simp only [bodyVal, h₀, h₁]
    rw [byteAt_untagged ho (by omega) (by omega), Nat.add_right_comm]
  | vlan id => exact h.elim
  | mpls label =>
    simp only [bodyVal, ho, Option.map_some, Option.getD_some, Nat.zero_mul, Nat.add_zero,
      Nat.one_mul, mplsVal_untagged ho]
  | pppoeSession sid =>
    cases sid with
    | none => rfl
    | some id =>
      simp only [bodyVal, ho, Option.map_some, Option.getD_some, Nat.zero_mul, Nat.add_zero,
        Nat.one_mul]
      rw [halfAt_untagged ho (by omega) (by omega)]
  | len op value => exact h.elim
  | byteAccess ba =>
    simp only [bodyVal, h₀, h₁, accessVal]
    have hleft : layerVal (untagged link pkt) (netAt link 0) (lhs ba).layer
        (lhs ba).offset.toUInt32 (lhs ba).size =
          layerVal pkt (netAt link 0 + 4) (lhs ba).layer (lhs ba).offset.toUInt32 (lhs ba).size :=
      layerVal_untagged ho h.1 hlo hhi
    simp only [lhs] at hleft
    rw [hleft]
    refine congrArg _ (funext fun v => ?_)
    cases hr : ba.rhs with
    | const k => rfl
    | load l => simp only [layerVal_untagged ho (h.2 l hr) hlo hhi]
  | proto | etherProto | pppoeDiscovery | ipProtoChain | ip6ProtoChain | inbound | outbound => rfl

theorem leafVal_untagged {p : Primitive} (h : Inside p) (hok : primOk p link = true) :
    leafVal (untagged link pkt) link p 0 = leafVal pkt link p 1 := by
  have hbody : bodyOk p link = true := (Bool.and_eq_true_iff.mp hok).2
  rw [leafVal, leafVal, outcome_body hbody, outcome_body hbody, guardVal_untagged ho,
    portsX_untagged ho, bodyVal_untagged ho h (portsX_le 1)]

theorem guardsVal_untagged (gs : List Guard) :
    guardsVal (untagged link pkt) link 0 gs = guardsVal pkt link 1 gs := by
  induction gs with
  | nil => rfl
  | cons g gs ih => rw [guardsVal, guardsVal, guardVal_untagged ho, ih]

/-- An expression has behind the tag the value it has on the untagged packet. -/
theorem value_untagged {mode : HoistMode} {e : Expr} (hin : ∀ p ∈ e.leaves, Inside p)
    (hok : ∀ p ∈ e.leaves, primOk p link = true) :
    value (untagged link pkt) link mode e 0 = value pkt link mode e 1 := by
  induction e with
  | primitive p => exact leafVal_untagged ho (hin p List.mem_cons_self) (hok p List.mem_cons_self)
  | and l r hl hr =>
    obtain ⟨hinl, hinr⟩ := List.forall_mem_append.mp hin
    obtain ⟨hokl, hokr⟩ := List.forall_mem_append.mp hok
    have hdeep : ∀ d, deeper l d = d := by
      intro d
      rw [deeper, leadsVlan_vlanFree (inside_vlanFree hinl)]
      rfl
    rw [value, value, hdeep, hdeep, hl hinl hokl, hr hinr hokr]
  | or l r hl hr =>
    obtain ⟨hinl, hinr⟩ := List.forall_mem_append.mp hin
    obtain ⟨hokl, hokr⟩ := List.forall_mem_append.mp hok
    rw [value, value, guardsVal_untagged ho, hl hinl hokl, hr hinr hokr]
  | not e ih => rw [value, value, ih hin hok]

end Values

/-- A chain that begins with a `vlan` and what the generator knows behind it. -/
structure Entered (pkt : Vm.Packet) (link : LinkType) (mode : HoistMode) (l : Expr) : Prop where
  leads : leadsVlan l = true
  fresh : FreshOn pkt mode l (.start link) .start
  behind : Behind (andRight mode l (.start link)) (exprTags pkt mode l (.start link) .start)

section Chain

variable {pkt : Vm.Packet} {link : LinkType} {mode : HoistMode} {off : Nat} {l e : Expr}
  {es : List Expr}

/-- The tag test itself: only the ethertype is known behind it, and it is that of the tag. -/
theorem entered_vlan (ho : link.etherProtoOffset = some off) (id : Option UInt16) :
    Entered pkt link mode (.primitive (.vlan id)) where
  leads := rfl
  fresh := freshGuard_flat pkt _ rfl
  behind := by
    have hquiet : quiet (body (.vlan id) link 0) := by
      have mask : writesX (.andK 0x0fff) = false := by decide
      cases id <;> simp [quiet, body, mask, jeqFail]
    have hguard : (asmGuard (.ethertype 0x8100) (.start link)).2.facts =
        { Facts.default with ethertype := some 0x8100 } := by
      cases link with
      | rawIp => cases ho
      | ethernet => rfl
      | linuxSll => rfl
    have hfacts : (andRight mode (.primitive (.vlan id)) (.start link)).facts =
        { Facts.default with ethertype := some 0x8100 } :=
      (congrArg Ctx.facts (after_quiet _ hquiet)).trans hguard
    have hdepth := (asm_frame mode (.primitive (.vlan id)) (.start link)).2
    refine ⟨congrArg (· + 1) hdepth, ?_, ?_, ?_, ?_⟩ <;> rw [hfacts] <;>
      exact fun hn => absurd rfl hn

/-- One more expression inside. -/
theorem Entered.and (h : Entered pkt link mode l) (hin : ∀ p ∈ e.leaves, Inside p) :
    Entered pkt link mode (.and l e) where
  leads := h.leads
  fresh := ⟨h.fresh, fun _ => (h.behind.fresh hin).1⟩
  behind := by
    have hb : Behind (asm mode e (andRight mode l (.start link))).2
        (exprTags pkt mode (.and l e) (.start link) .start) := (h.behind.fresh hin).2
    have hright : andRight mode (.and l e) (.start link) =
        (asm mode e (andRight mode l (.start link))).2 := by
      rcases hctx : (asm mode e (andRight mode l (.start link))).2 with ⟨link', facts, writes, d⟩
      rw [hctx] at hb
      obtain rfl : d = 1 := hb.depth
      have hasm : (asm mode (.and l e) (.start link)).2 =
          (asm mode e (andRight mode l (.start link))).2.unbump (leadsVlan l) := rfl
      rw [andRight, hasm, hctx]
      simp only [leadsVlan, h.leads, Ctx.unbump, Ctx.bump, if_true]
    rw [hright]
    exact hb

theorem Entered.chain (h : Entered pkt link mode l) (hin : ∀ e ∈ es, ∀ p ∈ e.leaves, Inside p) :
    Entered pkt link mode (es.foldl .and l) := by
  induction es generalizing l with
  | nil => exact h
  | cons e es ih =>
    exact ih (h.and (hin e List.mem_cons_self)) fun e' he' => hin e' (List.mem_cons_of_mem _ he')

theorem chain_leaves {p : Primitive} :
    p ∈ (es.foldl .and l).leaves ↔ p ∈ l.leaves ∨ ∃ e ∈ es, p ∈ e.leaves := by
  induction es generalizing l with
  | nil => simp
  | cons e es ih =>
    rw [List.foldl_cons, ih, Expr.leaves, List.mem_append, List.exists_mem_cons_iff, or_assoc]

/-- A chain is read from the left. -/
theorem value_chain (hl : leadsVlan l = false) (hes : ∀ e ∈ es, e.vlanFree) (d : Nat) :
    value pkt link mode (es.foldl .and l) d =
      es.foldl (fun t e => t.and (value pkt link mode e d)) (value pkt link mode l d) := by
  induction es generalizing l with
  | nil => rfl
  | cons e es ih =>
    have hstep : value pkt link mode (.and l e) d =
        (value pkt link mode l d).and (value pkt link mode e d) := by
      rw [value, deeper, hl]
      rfl
    rw [List.foldl_cons, List.foldl_cons, ih (l := .and l e) hl fun e' he' => hes e' (List.mem_cons_of_mem _ he'),
      hstep]

theorem value_behind (hl : leadsVlan l = true) :
    value pkt link mode (es.foldl .and l) 0 =
      es.foldl (fun t e => t.and (value pkt link mode e 1)) (value pkt link mode l 0) := by
  induction es generalizing l with
  | nil => rfl
  | cons e es ih =>
    have hstep : value pkt link mode (.and l e) 0 =
        (value pkt link mode l 0).and (value pkt link mode e 1) := by
      rw [value, deeper, hl]
      rfl
    rw [List.foldl_cons, List.foldl_cons, ih (l := .and l e) hl, hstep]

theorem foldl_and (t : Tri) (f : Expr → Tri) (a : Tri) :
    es.foldl (fun t e => t.and (f e)) (t.and a) = t.and (es.foldl (fun t e => t.and (f e)) a) := by
  induction es generalizing a with
  | nil => rfl
  | cons e es ih => rw [List.foldl_cons, List.foldl_cons, Tri.and_assoc, ih]

end Chain

/-- The packet to the web server behind a tag for VLAN 7. -/
def taggedWeb : Vm.Packet := toWeb.take 12 ++ [0x81, 0, 0, 7] ++ toWeb.drop 12

end PktBaffle.Proofs.Classic
