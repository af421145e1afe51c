import Mathlib

namespace PktBaffle.Bpf

def bpfLd : UInt16 := 0x00
def bpfLdx : UInt16 := 0x01
def bpfSt : UInt16 := 0x02
def bpfStx : UInt16 := 0x03
def bpfAlu : UInt16 := 0x04
def bpfJmp : UInt16 := 0x05
def bpfRet : UInt16 := 0x06
def bpfMisc : UInt16 := 0x07

def bpfW : UInt16 := 0x00
def bpfH : UInt16 := 0x08
def bpfB : UInt16 := 0x10

def bpfImm : UInt16 := 0x00
def bpfAbs : UInt16 := 0x20
def bpfInd : UInt16 := 0x40
def bpfMem : UInt16 := 0x60
def bpfLen : UInt16 := 0x80
def bpfMsh : UInt16 := 0xa0

def bpfAdd : UInt16 := 0x00
def bpfSub : UInt16 := 0x10
def bpfMul : UInt16 := 0x20
def bpfDiv : UInt16 := 0x30
def bpfOr : UInt16 := 0x40
def bpfAnd : UInt16 := 0x50
def bpfLsh : UInt16 := 0x60
def bpfRsh : UInt16 := 0x70
def bpfNeg : UInt16 := 0x80
def bpfXor : UInt16 := 0xa0

def bpfJa : UInt16 := 0x00
def bpfJeq : UInt16 := 0x10
def bpfJgt : UInt16 := 0x20
def bpfJge : UInt16 := 0x30
def bpfJset : UInt16 := 0x40

def bpfK : UInt16 := 0x00
def bpfX : UInt16 := 0x08
def bpfA : UInt16 := 0x10

def bpfTax : UInt16 := 0x00
def bpfTxa : UInt16 := 0x80

/-- Return value meaning "accept the full packet". -/
def bpfAccept : UInt32 := 0xffffffff
/-- Return value meaning "drop the packet". -/
def bpfDrop : UInt32 := 0

/-- A single classic BPF instruction. -/
structure Insn where
  code : UInt16
  jt : UInt8
  jf : UInt8
  k : UInt32
  deriving DecidableEq, Repr

/-- The jump slots of an instruction: the two branches of a conditional jump, and the
distance an unconditional one keeps in `k`. -/
inductive Slot where
  | jt
  | jf
  | ja
  deriving DecidableEq, Repr

namespace Insn

def ldwAbs (k : UInt32) : Insn := ⟨bpfLd ||| bpfW ||| bpfAbs, 0, 0, k⟩
def ldhAbs (k : UInt32) : Insn := ⟨bpfLd ||| bpfH ||| bpfAbs, 0, 0, k⟩
def ldbAbs (k : UInt32) : Insn := ⟨bpfLd ||| bpfB ||| bpfAbs, 0, 0, k⟩
def ldwInd (k : UInt32) : Insn := ⟨bpfLd ||| bpfW ||| bpfInd, 0, 0, k⟩
def ldbInd (k : UInt32) : Insn := ⟨bpfLd ||| bpfB ||| bpfInd, 0, 0, k⟩
def ldhInd (k : UInt32) : Insn := ⟨bpfLd ||| bpfH ||| bpfInd, 0, 0, k⟩
def ldxMsh (k : UInt32) : Insn := ⟨bpfLdx ||| bpfB ||| bpfMsh, 0, 0, k⟩
def ldxImm (k : UInt32) : Insn := ⟨bpfLdx ||| bpfW ||| bpfImm, 0, 0, k⟩
def andK (k : UInt32) : Insn := ⟨bpfAlu ||| bpfAnd ||| bpfK, 0, 0, k⟩
def orK (k : UInt32) : Insn := ⟨bpfAlu ||| bpfOr ||| bpfK, 0, 0, k⟩
def rshK (k : UInt32) : Insn := ⟨bpfAlu ||| bpfRsh ||| bpfK, 0, 0, k⟩
def addK (k : UInt32) : Insn := ⟨bpfAlu ||| bpfAdd ||| bpfK, 0, 0, k⟩
def subK (k : UInt32) : Insn := ⟨bpfAlu ||| bpfSub ||| bpfK, 0, 0, k⟩
def mulK (k : UInt32) : Insn := ⟨bpfAlu ||| bpfMul ||| bpfK, 0, 0, k⟩
def divK (k : UInt32) : Insn := ⟨bpfAlu ||| bpfDiv ||| bpfK, 0, 0, k⟩
def lshK (k : UInt32) : Insn := ⟨bpfAlu ||| bpfLsh ||| bpfK, 0, 0, k⟩
def xorK (k : UInt32) : Insn := ⟨bpfAlu ||| bpfXor ||| bpfK, 0, 0, k⟩
def jeqK (k : UInt32) (jt jf : UInt8) : Insn := ⟨bpfJmp ||| bpfJeq ||| bpfK, jt, jf, k⟩
def jgtK (k : UInt32) (jt jf : UInt8) : Insn := ⟨bpfJmp ||| bpfJgt ||| bpfK, jt, jf, k⟩
def jgeK (k : UInt32) (jt jf : UInt8) : Insn := ⟨bpfJmp ||| bpfJge ||| bpfK, jt, jf, k⟩
def jsetK (k : UInt32) (jt jf : UInt8) : Insn := ⟨bpfJmp ||| bpfJset ||| bpfK, jt, jf, k⟩
def jeqX (jt jf : UInt8) : Insn := ⟨bpfJmp ||| bpfJeq ||| bpfX, jt, jf, 0⟩
def jgtX (jt jf : UInt8) : Insn := ⟨bpfJmp ||| bpfJgt ||| bpfX, jt, jf, 0⟩
def jgeX (jt jf : UInt8) : Insn := ⟨bpfJmp ||| bpfJge ||| bpfX, jt, jf, 0⟩
def jsetX (jt jf : UInt8) : Insn := ⟨bpfJmp ||| bpfJset ||| bpfX, jt, jf, 0⟩
def tax : Insn := ⟨bpfMisc ||| bpfTax, 0, 0, 0⟩
def st (k : UInt32) : Insn := ⟨bpfSt, 0, 0, k⟩
def ldxMem (k : UInt32) : Insn := ⟨bpfLdx ||| bpfW ||| bpfMem, 0, 0, k⟩
def ja (offset : UInt32) : Insn := ⟨bpfJmp ||| bpfJa, 0, 0, offset⟩
def retK (k : UInt32) : Insn := ⟨bpfRet ||| bpfK, 0, 0, k⟩
/-- `LD | LEN`, which `emit_len` writes out as a literal. -/
def ldLen : Insn := ⟨bpfLd ||| bpfLen, 0, 0, 0⟩

/-- The displacement a jump slot holds. -/
def off (i : Insn) : Slot → Nat
  | .jt => i.jt.toNat
  | .jf => i.jf.toNat
  | .ja => i.k.toNat

/-- Store a displacement the way `resolve` does: as a `u8` in a branch, and widened from
a `u8` into the `k` of an unconditional jump. -/
def put (i : Insn) : Slot → Nat → Insn
  | .jt, n => { i with jt := UInt8.ofNat n }
  | .jf, n => { i with jf := UInt8.ofNat n }
  | .ja, n => { i with k := (UInt8.ofNat n).toUInt32 }

theorem put_put (i : Insn) (k : Slot) (n : Nat) : (i.put k n).put k n = i.put k n := by
  cases k <;> rfl

end Insn

/-- The classic BPF opcodes: every combination of class, size, mode, operation and source
that `vm::inner` gives a meaning. -/
def opcodes : List UInt16 :=
  [bpfW, bpfH, bpfB].flatMap (fun size => [bpfAbs, bpfInd].map (bpfLd ||| size ||| ·)) ++
  [bpfImm, bpfMem, bpfLen].map (bpfLd ||| bpfW ||| ·) ++
  [bpfImm, bpfMem, bpfLen].map (bpfLdx ||| bpfW ||| ·) ++
  [bpfLdx ||| bpfB ||| bpfMsh, bpfSt, bpfStx] ++
  [bpfK, bpfX].flatMap (fun src =>
    [bpfAdd, bpfSub, bpfMul, bpfDiv, bpfOr, bpfAnd, bpfLsh, bpfRsh, bpfNeg, bpfXor].map
      (bpfAlu ||| src ||| ·)) ++
  [bpfJmp ||| bpfJa] ++
  [bpfK, bpfX].flatMap (fun src =>
    [bpfJeq, bpfJgt, bpfJge, bpfJset].map (bpfJmp ||| src ||| ·)) ++
  [bpfRet ||| bpfK, bpfRet ||| bpfA, bpfMisc ||| bpfTax, bpfMisc ||| bpfTxa]

end PktBaffle.Bpf
