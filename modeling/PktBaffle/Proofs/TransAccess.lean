import PktBaffle.Lib
import PktBaffle.Proofs.Classic.Access
import PktBaffle.Proofs.Parser.Grammar

namespace PktBaffle.Proofs.TransAccess
open PktBaffle.Lexer Parsing Fields
open PktBaffle.Proofs.Parser
open PktBaffle.Classic (LinkType)
open PktBaffle.Proofs.Classic (Holds wrapping width)

/-- The protocols whose header a byte access may name. -/
def transNames : List Token := [.tcp, .udp, .icmp, .icmp6]

/-- The version in the network header. -/
def version (pkt : Vm.Packet) (link : LinkType) : Option Nat :=
  (number pkt link.netOffset 1).map (· / 16)

/-- Where the transport header starts: behind the options of an IPv4 header, or behind the 40 bytes
of an IPv6 header. -/
def transportStart (pkt : Vm.Packet) (link : LinkType) : Option Nat :=
  (number pkt link.netOffset 1).map fun b =>
    if b / 16 = 6 then link.netOffset + 40 else link.netOffset + 4 * (b % 16)

/-- The number at an offset of the transport header, if the packet is long enough. -/
def transportValue (pkt : Vm.Packet) (link : LinkType) (offset : Int32) (size : AccessSize) :
    Option Nat :=
  (transportStart pkt link).bind fun base =>
    let pos := (base : Int) + offset.toInt
    if 0 ≤ pos then number pkt pos.toNat (width size) else none

/-- One step of the arithmetic in 32 bits. Of the amount of a shift the low five bits count. -/
def masking (v : Nat) : ArithOp × UInt32 → Nat
  | (.shl, k) => wrapping v (.shl, k % 32)
  | (.shr, k) => wrapping v (.shr, k % 32)
  | s => wrapping v s

section Parse

variable {tokens : List Spanned} {w : Token} {p : Primitive}

/-- A name and a bracket are read as a byte access to the transport layer. -/
theorem parsePrimitive_name {i d : Nat} (hw : w ∈ transNames) (h₀ : tokAt tokens i = some w)
    (h₁ : tokAt tokens (i + 1) = some .lBracket) :
    parsePrimitive ⟨tokens, i, d⟩ = parseByteAccess .trans ⟨tokens, i + 1, d⟩ := by
  have ht : tok ⟨tokens, i, d⟩ = some w := h₀
  have hnext : ∀ otherwise : Parse Primitive,
      (advance >>= fun _ => byteAccessOr .trans otherwise) ⟨tokens, i, d⟩ =
        parseByteAccess .trans ⟨tokens, i + 1, d⟩ := by
    intro otherwise
    rw [advance_bind ht]
    unfold byteAccessOr
    rw [curTok_bind, if_pos (show tok (next ⟨tokens, i, d⟩) = some .lBracket from h₁)]
    rfl
  simp only [transNames, List.mem_cons, List.not_mem_nil, or_false] at hw
  unfold parsePrimitive
  rw [curTok_bind, ht]
  rcases hw with rfl | rfl | rfl | rfl
  · exact hnext _
  · exact hnext _
  · exact hnext _
  · exact hnext _

theorem bind_inv {α β : Type} {m : Parse α} {f : α → Parse β} {s : Parsing.Parser}
    {r : β × Parsing.Parser} (h : (m >>= f) s = .ok r) :
    ∃ a s', m s = .ok (a, s') ∧ f a s' = .ok r := by
  change (m s).bind (fun q => f q.1 q.2) = _ at h
  cases hm : m s with
  | error e =>
    rw [hm] at h
    cases h
  | ok q =>
    rw [hm] at h
    exact ⟨q.1, q.2, rfl, h⟩

theorem parseByteAccess_layer {layer : Layer} {s s' : Parsing.Parser}
    (h : parseByteAccess layer s = .ok (p, s')) : ∃ ba, p = .byteAccess ba ∧ ba.layer = layer := by
  obtain ⟨⟨_, _⟩, _, -, h⟩ := bind_inv h
  dsimp only at h
  rw [get_bind] at h
  obtain ⟨_, _, -, h⟩ := bind_inv h
  obtain ⟨_, _, -, h⟩ := bind_inv h
  obtain ⟨_, _, -, h⟩ := bind_inv h
  cases h
  exact ⟨_, rfl, rfl⟩

/-- A filter that is one primitive has the tree of that primitive. -/
theorem derives_primitive {n : Nat} (h : Derives parsePrimitive tokens .expr 0 0 n (.primitive p))
    (h₀ : tokAt tokens 0 = some w) (hw : w ∈ transNames) :
    parsePrimitive ⟨tokens, 0, 0⟩ = .ok (p, ⟨tokens, n, 0⟩) := by
  cases h with
  | single h =>
    cases h with
    | atom h =>
      cases h with
      | primitive h => exact h
      | paren hopen =>
        rw [h₀] at hopen
        cases hopen
        simp [transNames] at hw

end Parse

section Values

variable {pkt : Vm.Packet} {link : LinkType}

theorem aluVal_masking (steps : List (ArithOp × UInt32)) (v : UInt32) :
    (Classic.aluVal steps v).toNat = steps.foldl masking v.toNat := by
  induction steps generalizing v with
  | nil => rfl
  | cons s steps ih =>
    have hs : (Classic.arith s.1 v s.2).toNat = masking v.toNat s := by
      obtain ⟨op, k⟩ := s
      have h32 : (k % 32).toNat < 32 := by
        rw [UInt32.toNat_mod]
        exact Nat.mod_lt _ (by decide)
      cases op with
      | shl =>
        have hk := UInt32.shiftLeft_eq_shiftLeft_mod v k
        exact (congrArg UInt32.toNat hk).trans (Classic.arith_wrapping .shl v _ fun _ => h32)
      | shr =>
        have hk := UInt32.shiftRight_eq_shiftRight_mod v k
        exact (congrArg UInt32.toNat hk).trans (Classic.arith_wrapping .shr v _ fun _ => h32)
      | _ => exact Classic.arith_wrapping _ v k (by simp)
    rw [List.foldl_cons, ← hs]
    exact ih (Classic.arith s.1 v s.2)

/-- Where the header is not that of IPv6, the code reads what the name says. -/
theorem transportValue_read {offset : Int32} {size : AccessSize}
    (h6 : version pkt link ≠ some 6) :
    transportValue pkt link offset size = Classic.readValue pkt link ⟨.trans, offset, size⟩ := by
  unfold transportValue transportStart Classic.readValue Classic.layerBase
  cases hb : number pkt link.netOffset 1 with
  | none => rfl
  | some b =>
    have hb6 : ¬b / 16 = 6 := fun h => h6 (by rw [version, hb, ← h]; rfl)
    simp only [Option.map_some, if_neg hb6]

end Values

/-- The name in front of a byte access says where to count from and nothing else: the filter accepts
a packet that is not IPv6 exactly if the bytes of its transport header satisfy the comparison,
whichever protocol the packet carries. -/
theorem transport_access_compares {filter : String} {w : Token} {o o' : Nat} {rest : List Spanned}
    {p : Primitive} {link : LinkType} {insns : List Bpf.Insn} (hw : w ∈ transNames)
    (hl : lex filter = .ok (⟨w, o⟩ :: ⟨.lBracket, o'⟩ :: rest))
    (hp : Lib.parse filter = .ok (.primitive p))
    (hc : Lib.compile filter link .classic = .ok (.classic insns)) :
    ∃ ba, p = .byteAccess ba ∧ ba.layer = .trans ∧
      ∀ k, ba.rhs = .const k → ∀ pkt v, version pkt link ≠ some 6 →
        transportValue pkt link ba.offset ba.size = some v →
        (Vm.run insns pkt = true ↔ Holds ba.op (ba.aluOps.foldl masking v) k.toNat) := by
  have hparse : parse (⟨w, o⟩ :: ⟨.lBracket, o'⟩ :: rest) = .ok (.primitive p) := by
    rw [Lib.parse, hl] at hp
    exact hp
  have hprim := derives_primitive (((parse_eq_grammar _).1 _).mp hparse) rfl hw
  rw [parsePrimitive_name hw rfl rfl] at hprim
  obtain ⟨ba, rfl, hlayer⟩ := parseByteAccess_layer hprim
  refine ⟨ba, rfl, hlayer, fun k hk pkt v h6 hv => ?_⟩
  have hcc : PktBaffle.Classic.compile (.primitive (.byteAccess ba)) link = .ok insns := by
    rw [Lib.compile_classic hp] at hc
    cases hcc : PktBaffle.Classic.compile (.primitive (.byteAccess ba)) link with
    | error e =>
      rw [hcc] at hc
      cases hc
    | ok is =>
      rw [hcc] at hc
      cases hc
      rfl
  have hread : Classic.readValue pkt link (Classic.lhs ba) = some v := by
    rw [Classic.lhs, hlayer, ← transportValue_read h6, hv]
  obtain ⟨a, rfl, hrun⟩ := Classic.access_accepts hcc hread
    (show Classic.rhsValue pkt link ba.rhs = some k.toNat by rw [hk]; rfl)
  rw [hrun, aluVal_masking]

/-- `udp[0] = 8` -/
def firstByte : Expr := .primitive (.byteAccess ⟨.trans, 0, .byte, [], .eq, .const 8⟩)

theorem firstByte_lexed : lex "tcp[0] = 8" =
    .ok [⟨.tcp, 0⟩, ⟨.lBracket, 3⟩, ⟨.num 0, 4⟩, ⟨.rBracket, 5⟩, ⟨.eq, 7⟩, ⟨.num 8, 9⟩] := by
  decide +kernel

theorem firstByte_tcp : Lib.parse "tcp[0] = 8" = .ok firstByte := by decide +kernel

theorem firstByte_classic : PktBaffle.Classic.compile firstByte .ethernet =
    .ok [.ldxMsh 14, .ldbInd 14, .jeqK 8 0 1, .retK Bpf.bpfAccept, .retK Bpf.bpfDrop] := by
  decide +kernel

theorem firstByte_compiled : Lib.compile "tcp[0] = 8" .ethernet .classic =
    .ok (.classic [.ldxMsh 14, .ldbInd 14, .jeqK 8 0 1, .retK Bpf.bpfAccept, .retK Bpf.bpfDrop]) :=
  (Lib.compile_classic firstByte_tcp).trans (congrArg _ firstByte_classic)

/-- An IPv4 header of five words on Ethernet that names UDP, and eight bytes. -/
def udpPacket : Vm.Packet :=
  List.replicate 12 0 ++ [8, 0] ++ [0x45] ++ List.replicate 8 0 ++ [17] ++ List.replicate 10 0 ++
    [8, 0, 0, 80, 0, 8, 0, 0]

theorem transport_access_compares_udp :
    ∃ ba, Primitive.byteAccess ⟨.trans, 0, .byte, [], .eq, .const 8⟩ = .byteAccess ba ∧
      ba.layer = .trans ∧ ∀ k, ba.rhs = .const k → ∀ pkt v, version pkt .ethernet ≠ some 6 →
        transportValue pkt .ethernet ba.offset ba.size = some v →
        (Vm.run [.ldxMsh 14, .ldbInd 14, .jeqK 8 0 1, .retK Bpf.bpfAccept, .retK Bpf.bpfDrop] pkt =
          true ↔ Holds ba.op (ba.aluOps.foldl masking v) k.toNat) :=
  transport_access_compares (by decide) firstByte_lexed firstByte_tcp firstByte_compiled

/-- A UDP packet is accepted by a filter that names TCP. -/
theorem transport_access_unguarded : ∃ insns,
    Lib.compile "tcp[0] = 8" .ethernet .classic = .ok (.classic insns) ∧
      number udpPacket 12 2 = some 0x0800 ∧ number udpPacket 23 1 = some 17 ∧
      Vm.run insns udpPacket = true :=
  ⟨_, firstByte_compiled, by decide, by decide, by decide⟩

end PktBaffle.Proofs.TransAccess
