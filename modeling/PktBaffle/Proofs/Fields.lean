import PktBaffle.Vm

namespace PktBaffle.Proofs.Fields
open Vm

/-- The number a string of bytes spells, most significant byte first. -/
def bigEndian (bytes : List UInt8) : Nat := bytes.foldl (fun n b => n * 256 + b.toNat) 0

/-- The number in the `n` bytes at `off`, if the packet has them. -/
def number (pkt : Packet) (off n : Nat) : Option Nat :=
  if off + n ≤ pkt.length then some (bigEndian ((pkt.drop off).take n)) else none

variable {pkt : Packet} {off : Nat}

theorem number_isSome {n : Nat} : (number pkt off n).isSome ↔ off + n ≤ pkt.length := by
  simp [number]

theorem number_drop {n : Nat} (hn : 0 < n) :
    number pkt off n =
      if n ≤ (pkt.drop off).length then some (bigEndian ((pkt.drop off).take n)) else none := by
  have h : off + n ≤ pkt.length ↔ n ≤ (pkt.drop off).length := by
    rw [List.length_drop]
    omega
  simp only [number, h]

theorem toNat_fromBe2 (a b : UInt8) : (fromBe2 a b).toNat = bigEndian [a, b] := by
  have ha := a.toNat_lt
  have hb := b.toNat_lt
  simp only [fromBe2, bigEndian, List.foldl, UInt32.toNat_ofNat']
  omega

theorem toNat_fromBe4 (a b c d : UInt8) : (fromBe4 a b c d).toNat = bigEndian [a, b, c, d] := by
  have ha := a.toNat_lt
  have hb := b.toNat_lt
  have hc := c.toNat_lt
  have hd := d.toNat_lt
  simp only [fromBe4, bigEndian, List.foldl, UInt32.toNat_ofNat']
  omega

/-- A load finds the number at its offset. -/
theorem byte_number (pkt : Packet) (k : UInt32) : (byte pkt k).map UInt32.toNat = number pkt k.toNat 1 := by
  rw [number_drop Nat.one_pos]
  unfold byte
  match pkt.drop k.toNat with
  | [] => rfl
  | a :: _ => simp [bigEndian]

theorem half_number (pkt : Packet) (k : UInt32) : (half pkt k).map UInt32.toNat = number pkt k.toNat 2 := by
  rw [number_drop Nat.two_pos]
  unfold half
  match pkt.drop k.toNat with
  | [] => rfl
  | [_] => rfl
  | a :: b :: _ => simp [toNat_fromBe2]

theorem word_number (pkt : Packet) (k : UInt32) : (word pkt k).map UInt32.toNat = number pkt k.toNat 4 := by
  rw [number_drop (by omega)]
  unfold word
  match pkt.drop k.toNat with
  | [] => rfl
  | [_] => rfl
  | [_, _] => rfl
  | [_, _, _] => rfl
  | a :: b :: c :: d :: _ => simp [toNat_fromBe4]

end PktBaffle.Proofs.Fields
