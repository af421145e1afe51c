import PktBaffle.Proofs.Classic.Values
import PktBaffle.Proofs.Fields

namespace PktBaffle.Proofs.Classic
open Bpf Forward PktBaffle.Classic Fields

def width : AccessSize → Nat
  | .byte => 1
  | .half => 2
  | .word => 4

/-- Where the offsets of a layer count from. The transport header is behind the IPv4 header. -/
def layerBase (pkt : Vm.Packet) (link : LinkType) : Layer → Option Nat
  | .raw => some 0
  | .net => some link.netOffset
  | .trans => (number pkt link.netOffset 1).map fun b => link.netOffset + 4 * (b % 16)

/-- The number a byte access reads, if the packet is long enough. -/
def readValue (pkt : Vm.Packet) (link : LinkType) (l : ByteLoad) : Option Nat :=
  (layerBase pkt link l.layer).bind fun base =>
    let pos := (base : Int) + l.offset.toInt
    if 0 ≤ pos then number pkt pos.toNat (width l.size) else none

/-- One step of the arithmetic, in 32 bits with wrap-around. -/
def wrapping (v : Nat) : ArithOp × UInt32 → Nat
  | (.add, k) => (v + k.toNat) % 2 ^ 32
  | (.sub, k) => (v + (2 ^ 32 - k.toNat)) % 2 ^ 32
  | (.mul, k) => v * k.toNat % 2 ^ 32
  | (.div, k) => v / k.toNat
  | (.mod, k) => v % k.toNat
  | (.and, k) => v &&& k.toNat
  | (.or, k) => v ||| k.toNat
  | (.xor, k) => v ^^^ k.toNat
  | (.shl, k) => v * 2 ^ k.toNat % 2 ^ 32
  | (.shr, k) => v / 2 ^ k.toNat

/-- What the comparison operators mean. -/
def Holds (op : CmpOp) (v w : Nat) : Prop :=
  match op with
  | .eq => v = w
  | .ne => v ≠ w
  | .gt => w < v
  | .ge => w ≤ v
  | .lt => v < w
  | .le => v ≤ w
  | .bitAnd => v &&& w ≠ 0

/-- The left side of a byte access. -/
def lhs (ba : ByteAccess) : ByteLoad := ⟨ba.layer, ba.offset, ba.size⟩

def rhsValue (pkt : Vm.Packet) (link : LinkType) : CmpRhs → Option Nat
  | .const k => some k.toNat
  | .load l => readValue pkt link l

/-- A test of an address in a direction. -/
def Directed (test : Nat → Prop) (src dst : Nat) : Dir → Prop
  | .src => test src
  | .dst => test dst
  | .srcAndDst => test src ∧ test dst
  | .srcOrDst => test src ∨ test dst

section Directions

variable {dir : Dir} {test : Nat → Prop} {src dst : Nat}

/-- The four directions of a test that gives a verdict both ways. -/
theorem both_directed {val : Nat → Tri} (hs : ∃ b, val src = some b ∧ (b = true ↔ test src))
    (hd : ∃ b, val dst = some b ∧ (b = true ↔ test dst)) :
    bothVal val src dst src dst dir = some true ↔ Directed test src dst dir := by
  obtain ⟨b, hb, hbt⟩ := hs
  obtain ⟨c, hc, hct⟩ := hd
  cases dir <;> simp [bothVal, Directed, hb, hc, ← hbt, ← hct]

/-- The same where the destination is tested first. -/
theorem both_directed_dst {val : Nat → Tri} (hs : ∃ b, val src = some b ∧ (b = true ↔ test src))
    (hd : ∃ b, val dst = some b ∧ (b = true ↔ test dst)) :
    bothVal val src dst dst src dir = some true ↔ Directed test src dst dir := by
  obtain ⟨b, hb, hbt⟩ := hs
  obtain ⟨c, hc, hct⟩ := hd
  cases dir <;> simp [bothVal, Directed, hb, hc, ← hbt, ← hct, and_comm, or_comm]

theorem addrVal_eq_bothVal (val : Nat → Option UInt32) (k : UInt32) :
    addrVal val k src dst dir = bothVal (fun off => equals (val off) k) src dst src dst dir := by
  cases dir <;> rfl

end Directions

section Arithmetic

theorem cmpVal_holds (op : CmpOp) (v w : UInt32) :
    cmpVal op v w = true ↔ Holds op v.toNat w.toNat := by
  cases op with
  | eq => simp [cmpVal, Holds, UInt32.toNat_inj]
  | ne => simp [cmpVal, Holds, UInt32.toNat_inj]
  | gt => simp [cmpVal, Holds, UInt32.lt_iff_toNat_lt]
  | ge => simp [cmpVal, Holds, UInt32.le_iff_toNat_le]
  | lt => simp [cmpVal, Holds, UInt32.lt_iff_toNat_lt]
  | le => simp [cmpVal, Holds, UInt32.le_iff_toNat_le]
  | bitAnd => simp [cmpVal, Holds, ← UInt32.toNat_inj]

theorem arith_wrapping (op : ArithOp) (v k : UInt32)
    (hk : op = .shl ∨ op = .shr → k.toNat < 32) :
    (arith op v k).toNat = wrapping v.toNat (op, k) := by
  cases op with
  | add => simp [arith, wrapping]
  | sub =>
    simp only [arith, wrapping, UInt32.toNat_sub]
    congr 1
    exact Nat.add_comm ..
  | mul => simp [arith, wrapping]
  | div => simp [arith, wrapping]
  | mod => simp [arith, wrapping]
  | and => simp [arith, wrapping]
  | or => simp [arith, wrapping]
  | xor => simp [arith, wrapping]
  | shl =>
    have h32 := hk (.inl rfl)
    simp only [arith, wrapping, UInt32.toNat_shiftLeft, Nat.shiftLeft_eq]
    rw [Nat.mod_eq_of_lt h32]
  | shr =>
    have h32 := hk (.inr rfl)
    simp only [arith, wrapping, UInt32.toNat_shiftRight, Nat.shiftRight_eq_div_pow]
    rw [Nat.mod_eq_of_lt h32]

theorem aluVal_wrapping (steps : List (ArithOp × UInt32)) (v : UInt32)
    (h : ∀ st ∈ steps, st.1 = .shl ∨ st.1 = .shr → st.2.toNat < 32) :
    (aluVal steps v).toNat = steps.foldl wrapping v.toNat := by
  induction steps generalizing v with
  | nil => rfl
  | cons st steps ih =>
    have hs := arith_wrapping st.1 v st.2 (h st List.mem_cons_self)
    have ht := ih (arith st.1 v st.2) fun t ht => h t (List.mem_cons_of_mem _ ht)
    simp only [List.foldl_cons, ← hs]
    exact ht

end Arithmetic

section Reads

variable {pkt : Vm.Packet} {link : LinkType}

theorem sizedVal_number (pkt : Vm.Packet) (size : AccessSize) (k : UInt32) :
    (sizedVal pkt size k).map UInt32.toNat = number pkt k.toNat (width size) := by
  cases size with
  | byte => exact byte_number pkt k
  | half => exact half_number pkt k
  | word => exact word_number pkt k

/-- An offset as the instruction holds it, and as a signed number. -/
theorem toInt_toUInt32 (i : Int32) : i.toInt = i.toUInt32.toNat ∨
    i.toInt = (i.toUInt32.toNat : Int) - 2 ^ 32 := by
  have h := BitVec.toInt_eq_toNat_cond i.toBitVec
  change i.toInt = _ at h
  change i.toInt = (i.toBitVec.toNat : Int) ∨ i.toInt = (i.toBitVec.toNat : Int) - 2 ^ 32
  split at h
  · exact .inl h
  · exact .inr h

/-- Offset arithmetic that wraps still lands where the signed sum does. -/
theorem offset_wraps {base : Nat} {i : Int32} (hb : base < 2 ^ 31)
    (hp : 0 ≤ (base : Int) + i.toInt) :
    (base + i.toUInt32.toNat) % 2 ^ 32 = ((base : Int) + i.toInt).toNat := by
  have hi := i.toUInt32.toNat_lt
  have hlt : i.toInt < 2 ^ 31 := Int32.toInt_lt i
  rcases toInt_toUInt32 i with h | h <;> omega

/-- A comparison with a constant asks for a number. -/
theorem equals_iff {o : Option UInt32} {m : Option Nat} (h : o.map UInt32.toNat = m) (k : UInt32) :
    equals o k = some true ↔ m = some k.toNat := by
  subst h
  cases o with
  | none => simp [equals]
  | some v => simp [equals, UInt32.toNat_inj]

theorem toNat_ofNat {off : Nat} (h : off < 2 ^ 32) : (UInt32.ofNat off).toNat = off := by
  rw [UInt32.toNat_ofNat']
  exact Nat.mod_eq_of_lt h

/-- The ethertype test, where there is an ethertype. -/
theorem etherVal_iff {ether : Nat} (ho : link.etherProtoOffset = some ether) (et : UInt32) :
    etherVal pkt link 0 et = some true ↔ number pkt ether 2 = some et.toNat := by
  have he : ether ≤ 14 := by
    cases link <;> simp [LinkType.etherProtoOffset] at ho <;> omega
  have hat : etherAt link 0 = some ether := by simp [etherAt, ho]
  have hk := half_number pkt (.ofNat ether)
  rw [toNat_ofNat (by omega)] at hk
  unfold etherVal
  rw [hat]
  exact equals_iff hk et

theorem netOffset_small (link : LinkType) : link.netOffset ≤ 16 := by
  cases link <;> decide

/-- A field that is there is what the code loads. -/
theorem layerVal_read {l : ByteLoad} {v : Nat} (h : readValue pkt link l = some v) :
    ∃ u, layerVal pkt link.netOffset l.layer l.offset.toUInt32 l.size = some u ∧ u.toNat = v := by
  have hnet := netOffset_small link
  obtain ⟨base, hb, h⟩ := Option.bind_eq_some_iff.mp h
  simp only at h
  split at h
  · rename_i hpos
    -- Every load is at the position the specification asks for.
    have hload : ∀ k : UInt32, k.toNat = ((base : Int) + l.offset.toInt).toNat →
        ∃ u, sizedVal pkt l.size k = some u ∧ u.toNat = v := by
      intro k hk
      have hs := sizedVal_number pkt l.size k
      rw [hk, h] at hs
      exact Option.map_eq_some_iff.mp hs
    unfold layerVal
    cases hl : l.layer with
    | raw =>
      rw [hl] at hb
      cases hb
      rw [if_neg (by decide)]
      refine hload _ ?_
      rw [UInt32.toNat_ofNat', layerOffset]
      have hw := offset_wraps (by decide) hpos
      rwa [Nat.zero_add] at hw
    | net =>
      rw [hl] at hb
      cases hb
      rw [if_neg (by decide)]
      refine hload _ ?_
      rw [UInt32.toNat_ofNat', layerOffset]
      exact offset_wraps (by omega) hpos
    | trans =>
      rw [hl] at hb
      obtain ⟨n, hn, rfl⟩ := Option.map_eq_some_iff.mp hb
      rw [if_pos rfl]
      have hbyte := byte_number pkt (.ofNat link.netOffset)
      have hk : (UInt32.ofNat link.netOffset).toNat = link.netOffset := by
        rw [UInt32.toNat_ofNat']
        omega
      rw [hk, hn] at hbyte
      obtain ⟨b, hb', rfl⟩ := Option.map_eq_some_iff.mp hbyte
      rw [hb']
      refine hload _ ?_
      have hmask : (b &&& 0xf).toNat = b.toNat % 16 := by
        rw [UInt32.toNat_and]
        exact Nat.and_two_pow_sub_one_eq_mod _ 4
      have hw := @offset_wraps (link.netOffset + 4 * (b.toNat % 16)) _ (by omega) hpos
      rw [← hw, UInt32.toNat_add, UInt32.toNat_mul, hmask, UInt32.toNat_ofNat']
      have h4 : (4 : UInt32).toNat = 4 := rfl
      rw [h4]
      omega
  · cases h

end Reads

/-- What a byte access accepts, with its arithmetic as the machine does it. -/
theorem access_accepts {ba : ByteAccess} {link : LinkType} {insns : List Insn} {pkt : Vm.Packet}
    {v w : Nat} (hc : compile (.primitive (.byteAccess ba)) link = .ok insns)
    (hv : readValue pkt link (lhs ba) = some v) (hw : rhsValue pkt link ba.rhs = some w) :
    ∃ a : UInt32, a.toNat = v ∧
      (Vm.run insns pkt = true ↔ Holds ba.op (aluVal ba.aluOps a).toNat w) := by
  obtain ⟨a, ha, hav⟩ := layerVal_read hv
  have hval : ∀ r : UInt32, r.toNat = w →
      (cmpVal ba.op (aluVal ba.aluOps a) r = true ↔ Holds ba.op (aluVal ba.aluOps a).toNat w) := by
    rintro r rfl
    exact cmpVal_holds _ _ _
  refine ⟨a, hav, ?_⟩
  rw [leaf_accepts hc]
  have hbody : bodyVal pkt (.byteAccess ba) link 0 (portsX pkt link 0) =
      accessVal pkt ba link.netOffset := rfl
  have hguard : guardVal pkt link 0 (guardOf (.byteAccess ba)) = some true := rfl
  rw [hbody, hguard, accessVal, show layerVal pkt link.netOffset ba.layer ba.offset.toUInt32 ba.size =
    some a from ha, Option.bind_some]
  cases hr : ba.rhs with
  | const k =>
    rw [hr] at hw
    cases hw
    simpa using hval k rfl
  | load l =>
    rw [hr] at hw
    obtain ⟨r, hread, hrw⟩ := layerVal_read hw
    simpa [hread] using hval r hrw

/-- A byte access accepts exactly the packets in which its comparison holds, whatever the layers of
its two sides and by whichever registers it is made. -/
theorem byteAccess_compares {ba : ByteAccess} {link : LinkType} {insns : List Insn}
    {pkt : Vm.Packet} {v w : Nat} (hc : compile (.primitive (.byteAccess ba)) link = .ok insns)
    (hs : ∀ st ∈ ba.aluOps, st.1 = .shl ∨ st.1 = .shr → st.2.toNat < 32)
    (hv : readValue pkt link (lhs ba) = some v) (hw : rhsValue pkt link ba.rhs = some w) :
    Vm.run insns pkt = true ↔ Holds ba.op (ba.aluOps.foldl wrapping v) w := by
  obtain ⟨a, rfl, h⟩ := access_accepts hc hv hw
  rw [h, aluVal_wrapping _ _ hs]

/-- `tcp[0:2] << 1 > tcp[2:2]` -/
def twicePorts : ByteAccess := ⟨.trans, 0, .half, [(.shl, 1)], .gt, .load ⟨.trans, 2, .half⟩⟩

/-- An IPv4 header of five words on Ethernet, and two ports. -/
def portsPacket : Vm.Packet :=
  List.replicate 14 0 ++ [0x45] ++ List.replicate 19 0 ++ [0, 80, 0, 100]

theorem byteAccess_compares_ports : ∃ insns,
    compile (.primitive (.byteAccess twicePorts)) .ethernet = .ok insns ∧
      Vm.run insns portsPacket = true := by
  obtain ⟨insns, hc⟩ := @leaf_compiles .hoist (.byteAccess twicePorts) .ethernet (by decide)
  exact ⟨insns, hc, (byteAccess_compares hc (by decide) (v := 80) (w := 100) (by decide)
    (by decide)).mpr (show 100 < 160 by decide)⟩

end PktBaffle.Proofs.Classic
