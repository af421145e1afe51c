import Mathlib

/-! Unsigned machine words of `w` bits, as natural numbers below `2 ^ w`. -/

namespace PktBaffle.Usize

variable {w a b : Nat}

/-- `a + b`, or nothing if it overflows. -/
def checkedAdd (w a b : Nat) : Option Nat := if a + b < 2 ^ w then some (a + b) else none

/-- `a - b`, or nothing if it overflows. -/
def checkedSub (a b : Nat) : Option Nat := if b ≤ a then some (a - b) else none

/-- `a * b`, or nothing if it overflows. -/
def checkedMul (w a b : Nat) : Option Nat := if a * b < 2 ^ w then some (a * b) else none

def wrappingAdd (w a b : Nat) : Nat := (a + b) % 2 ^ w

def saturatingAdd (w a b : Nat) : Nat := min (a + b) (2 ^ w - 1)

/-- `a / b` rounded up. -/
def divCeil (a b : Nat) : Nat := if a % b = 0 then a / b else a / b + 1

theorem checkedAdd_of_lt (h : a + b < 2 ^ w) : checkedAdd w a b = some (a + b) := if_pos h

theorem checkedAdd_of_le (h : 2 ^ w ≤ a + b) : checkedAdd w a b = none := if_neg (by omega)

theorem checkedAdd_eq_some {c : Nat} : checkedAdd w a b = some c ↔ c = a + b ∧ a + b < 2 ^ w := by
  unfold checkedAdd
  split <;> simp <;> omega

theorem checkedMul_eq_some {c : Nat} : checkedMul w a b = some c ↔ c = a * b ∧ a * b < 2 ^ w := by
  unfold checkedMul
  split
  · simp only [Option.some.injEq]
    omega
  · simp only [reduceCtorEq, false_iff]
    omega

theorem wrappingAdd_of_lt (h : a + b < 2 ^ w) : wrappingAdd w a b = a + b := Nat.mod_eq_of_lt h

/-- A sum of two words that wraps comes out below both. -/
theorem wrappingAdd_of_le (ha : a < 2 ^ w) (hb : b < 2 ^ w) (h : 2 ^ w ≤ a + b) :
    wrappingAdd w a b = a + b - 2 ^ w := by
  rw [wrappingAdd, Nat.mod_eq_sub_mod h, Nat.mod_eq_of_lt (by omega)]

theorem divCeil_mul_ge (hb : 0 < b) : a ≤ divCeil a b * b := by
  have h := Nat.div_add_mod a b
  have hlt := Nat.mod_lt a hb
  unfold divCeil
  split
  · rw [Nat.mul_comm]
    omega
  · rw [Nat.add_mul, Nat.mul_comm]
    omega

theorem divCeil_mul_lt (hb : 0 < b) : divCeil a b * b < a + b := by
  have h := Nat.div_add_mod a b
  unfold divCeil
  split
  · rw [Nat.mul_comm]
    omega
  · rw [Nat.add_mul, Nat.mul_comm]
    omega

end PktBaffle.Usize
