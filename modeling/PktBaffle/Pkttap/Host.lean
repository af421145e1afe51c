import PktBaffle.Usize
import PktBaffle.Pkttap.Error

namespace PktBaffle.Pkttap

/-- The byte order of the machine. -/
inductive Endian where
  | little
  | big
  deriving DecidableEq, Repr

/-- The value of a field of an unaligned native struct, given its bytes. -/
def Endian.value (e : Endian) (bytes : List UInt8) : Nat :=
  let first := match e with
    | .little => bytes.reverse
    | .big => bytes
  first.foldl (fun n b => n * 256 + b.toNat) 0

/-- The bytes of a field that holds `n`. -/
def Endian.bytes (e : Endian) (size n : Nat) : List UInt8 :=
  let low := (List.range size).map fun i => UInt8.ofNat (n / 256 ^ i)
  match e with
  | .little => low
  | .big => low.reverse

namespace Endian

@[simp] theorem bytes_length (e : Endian) (size n : Nat) : (e.bytes size n).length = size := by
  cases e <;> simp [bytes]

/-- The digits of a number, least significant first, add up to it. -/
theorem foldr_digits {size n : Nat} (h : n < 256 ^ size) :
    ((List.range size).map fun i => UInt8.ofNat (n / 256 ^ i)).foldr
      (fun b acc => acc * 256 + b.toNat) 0 = n := by
  induction size generalizing n with
  | zero =>
    rw [Nat.pow_zero] at h
    change 0 = n
    omega
  | succ size ih =>
    have hdiv : n / 256 < 256 ^ size := by
      rw [Nat.div_lt_iff_lt_mul (by omega)]
      rwa [Nat.pow_succ] at h
    have hrest : (List.range size).map ((fun i => UInt8.ofNat (n / 256 ^ i)) ∘ Nat.succ) =
        (List.range size).map fun i => UInt8.ofNat (n / 256 / 256 ^ i) := by
      apply List.map_congr_left
      intro i _
      simp only [Function.comp, Nat.pow_succ', Nat.div_div_eq_div_mul]
    rw [List.range_succ_eq_map, List.map_cons, List.map_map, hrest, List.foldr_cons, ih hdiv,
      Nat.pow_zero, Nat.div_one, UInt8.toNat_ofNat']
    omega

theorem value_bytes (e : Endian) {size n : Nat} (h : n < 256 ^ size) :
    e.value (e.bytes size n) = n := by
  cases e <;> simpa only [value, bytes, List.foldl_reverse] using foldr_digits h

theorem value_lt (e : Endian) (bytes : List UInt8) : e.value bytes < 256 ^ bytes.length := by
  have hfold : ∀ (l : List UInt8) (n k : Nat), n < 256 ^ k →
      l.foldl (fun n b => n * 256 + b.toNat) n < 256 ^ (k + l.length) := by
    intro l
    induction l with
    | nil => exact fun n k h => h
    | cons b l ih =>
      intro n k h
      have hb : b.toNat < 256 := b.toNat_lt
      have hstep : n * 256 + b.toNat < 256 ^ (k + 1) := by
        rw [Nat.pow_succ]
        omega
      simpa only [List.foldl_cons, List.length_cons, Nat.add_assoc, Nat.add_comm 1] using
        ih _ _ hstep
  cases e
  · simpa [value] using hfold bytes.reverse 0 0 (by decide)
  · simpa [value] using hfold bytes 0 0 (by decide)

end Endian

/-- The machine the code runs on: the width of `usize` and its byte order. -/
structure Host where
  width : Nat
  endian : Endian

namespace Host

variable (host : Host)

/-- The field of `size` bytes at `off`. -/
def field (bytes : List UInt8) (off size : Nat) : Nat :=
  host.endian.value ((bytes.drop off).take size)

theorem field_lt (bytes : List UInt8) (off size : Nat) :
    host.field bytes off size < 256 ^ size :=
  (host.endian.value_lt _).trans_le
    (Nat.pow_le_pow_right (by omega) (by simp [List.length_take]))

/-- A field reads back what stands there. -/
theorem field_bytes {pre post : List UInt8} {off size n : Nat} (hoff : pre.length = off)
    (h : n < 256 ^ size) :
    host.field (pre ++ (host.endian.bytes size n ++ post)) off size = n := by
  have htake : ((host.endian.bytes size n ++ post).take size) = host.endian.bytes size n := by
    rw [List.take_append_of_le_length (by simp)]
    exact List.take_of_length_le (by simp)
  unfold field
  rw [← hoff, List.drop_left, htake]
  exact host.endian.value_bytes h

/-- The value of an operation that panics where it has none. -/
def strict {α : Type} (message : String) : Option α → Except Error α
  | some v => .ok v
  | none => .error (.panic message)

theorem strict_ok {α : Type} {message : String} {o : Option α} {a : α}
    (h : strict message o = .ok a) : o = some a := by
  cases o with
  | none => cases h
  | some b => exact congrArg some (Except.ok.inj h)

/-- `a + b` on `usize`. -/
def add (a b : Nat) : Except Error Nat :=
  strict "attempt to add with overflow" (Usize.checkedAdd host.width a b)

/-- `a * b` on `usize`. -/
def mul (a b : Nat) : Except Error Nat :=
  strict "attempt to multiply with overflow" (Usize.checkedMul host.width a b)

end Host

/-- `a - b` on `usize`. -/
def Host.sub (a b : Nat) : Except Error Nat :=
  Host.strict "attempt to subtract with overflow" (Usize.checkedSub a b)

/-- `n & !(size - 1)` for a power of two `size`. -/
def clearLow (n size : Nat) : Nat := n - n % size

end PktBaffle.Pkttap
