import Mathlib

namespace PktBaffle.Ebpf

def bpfLd : UInt8 := 0x00
def bpfLdx : UInt8 := 0x01
def bpfAlu : UInt8 := 0x04
def bpfJmp : UInt8 := 0x05
def bpfJmp32 : UInt8 := 0x06
def bpfAlu64 : UInt8 := 0x07

def bpfW : UInt8 := 0x00
def bpfH : UInt8 := 0x08
def bpfB : UInt8 := 0x10
def bpfDw : UInt8 := 0x18

def bpfMem : UInt8 := 0x60

def bpfK : UInt8 := 0x00
def bpfX : UInt8 := 0x08

def bpfAdd : UInt8 := 0x00
def bpfSub : UInt8 := 0x10
def bpfMul : UInt8 := 0x20
def bpfDiv : UInt8 := 0x30
def bpfOr : UInt8 := 0x40
def bpfAnd : UInt8 := 0x50
def bpfLsh : UInt8 := 0x60
def bpfRsh : UInt8 := 0x70
def bpfXor : UInt8 := 0xa0
def bpfMov : UInt8 := 0xb0
/-- Byte swap; bit 3 of the opcode selects the direction, `imm` is the width in bits. -/
def bpfEnd : UInt8 := 0xd0
def bpfToLe : UInt8 := 0x00
def bpfToBe : UInt8 := 0x08

def bpfJa : UInt8 := 0x00
def bpfJeq : UInt8 := 0x10
def bpfJgt : UInt8 := 0x20
def bpfJge : UInt8 := 0x30
def bpfJset : UInt8 := 0x40
def bpfJne : UInt8 := 0x50
def bpfJlt : UInt8 := 0xa0
def bpfJle : UInt8 := 0xb0
def bpfExit : UInt8 := 0x90

/-- Return value. -/
def r0 : UInt8 := 0
/-- The context pointer. -/
def r1 : UInt8 := 1
/-- Packet data start. -/
def r2 : UInt8 := 2
/-- Packet data end. -/
def r3 : UInt8 := 3
/-- Loaded packet values and computed results. -/
def r4 : UInt8 := 4
/-- End pointer of a bounds check. -/
def r5 : UInt8 := 5
/-- Transport header pointer. -/
def r6 : UInt8 := 6
/-- Frame pointer. -/
def r10 : UInt8 := 10

def xdpDrop : Int32 := 1
def xdpPass : Int32 := 2

/-- A single eBPF instruction; `regs` packs `dst` in its low and `src` in its high nibble. -/
structure Insn where
  code : UInt8
  regs : UInt8
  off : Int16
  imm : Int32
  deriving DecidableEq

namespace Insn

def new (code dst src : UInt8) (off : Int16) (imm : Int32) : Insn :=
  ⟨code, (dst &&& 0xf) ||| ((src &&& (0xf : UInt8)) <<< (4 : UInt8)), off, imm⟩

def dst (i : Insn) : UInt8 := i.regs &&& 0xf

def src (i : Insn) : UInt8 := (i.regs >>> 4) &&& 0xf

def mov64Reg (dst src : UInt8) : Insn := new (bpfAlu64 ||| bpfMov ||| bpfX) dst src 0 0
def mov64Imm (dst : UInt8) (imm : Int32) : Insn := new (bpfAlu64 ||| bpfMov ||| bpfK) dst 0 0 imm
def add64Reg (dst src : UInt8) : Insn := new (bpfAlu64 ||| bpfAdd ||| bpfX) dst src 0 0
def add64Imm (dst : UInt8) (imm : Int32) : Insn := new (bpfAlu64 ||| bpfAdd ||| bpfK) dst 0 0 imm
/-- `dst -= src`, which `emit_len` writes out with `Insn::new`. -/
def sub64Reg (dst src : UInt8) : Insn := new (bpfAlu64 ||| bpfSub ||| bpfX) dst src 0 0

def and32Imm (dst : UInt8) (imm : Int32) : Insn := new (bpfAlu ||| bpfAnd ||| bpfK) dst 0 0 imm
def or32Imm (dst : UInt8) (imm : Int32) : Insn := new (bpfAlu ||| bpfOr ||| bpfK) dst 0 0 imm
def xor32Imm (dst : UInt8) (imm : Int32) : Insn := new (bpfAlu ||| bpfXor ||| bpfK) dst 0 0 imm
def add32Imm (dst : UInt8) (imm : Int32) : Insn := new (bpfAlu ||| bpfAdd ||| bpfK) dst 0 0 imm
def sub32Imm (dst : UInt8) (imm : Int32) : Insn := new (bpfAlu ||| bpfSub ||| bpfK) dst 0 0 imm
def mul32Imm (dst : UInt8) (imm : Int32) : Insn := new (bpfAlu ||| bpfMul ||| bpfK) dst 0 0 imm
def div32Imm (dst : UInt8) (imm : Int32) : Insn := new (bpfAlu ||| bpfDiv ||| bpfK) dst 0 0 imm
def rsh32Imm (dst : UInt8) (imm : Int32) : Insn := new (bpfAlu ||| bpfRsh ||| bpfK) dst 0 0 imm
def lsh32Imm (dst : UInt8) (imm : Int32) : Insn := new (bpfAlu ||| bpfLsh ||| bpfK) dst 0 0 imm

def be16 (dst : UInt8) : Insn := new (bpfAlu ||| bpfEnd ||| bpfToBe) dst 0 0 16
def be32 (dst : UInt8) : Insn := new (bpfAlu ||| bpfEnd ||| bpfToBe) dst 0 0 32

def ldxB (dst src : UInt8) (off : Int16) : Insn := new (bpfLdx ||| bpfMem ||| bpfB) dst src off 0
def ldxH (dst src : UInt8) (off : Int16) : Insn := new (bpfLdx ||| bpfMem ||| bpfH) dst src off 0
def ldxW (dst src : UInt8) (off : Int16) : Insn := new (bpfLdx ||| bpfMem ||| bpfW) dst src off 0

def ja (off : Int16) : Insn := new (bpfJmp ||| bpfJa) 0 0 off 0
def jeqImm (dst : UInt8) (imm : Int32) (off : Int16) : Insn :=
  new (bpfJmp ||| bpfJeq ||| bpfK) dst 0 off imm
def jneImm (dst : UInt8) (imm : Int32) (off : Int16) : Insn :=
  new (bpfJmp ||| bpfJne ||| bpfK) dst 0 off imm
def jgtImm (dst : UInt8) (imm : Int32) (off : Int16) : Insn :=
  new (bpfJmp ||| bpfJgt ||| bpfK) dst 0 off imm
def jgeImm (dst : UInt8) (imm : Int32) (off : Int16) : Insn :=
  new (bpfJmp ||| bpfJge ||| bpfK) dst 0 off imm
def jltImm (dst : UInt8) (imm : Int32) (off : Int16) : Insn :=
  new (bpfJmp ||| bpfJlt ||| bpfK) dst 0 off imm
def jleImm (dst : UInt8) (imm : Int32) (off : Int16) : Insn :=
  new (bpfJmp ||| bpfJle ||| bpfK) dst 0 off imm
def jsetImm (dst : UInt8) (imm : Int32) (off : Int16) : Insn :=
  new (bpfJmp ||| bpfJset ||| bpfK) dst 0 off imm
def jgtReg (dst src : UInt8) (off : Int16) : Insn :=
  new (bpfJmp ||| bpfJgt ||| bpfX) dst src off 0
def exit : Insn := new (bpfJmp ||| bpfExit) 0 0 0 0

/-- Store a displacement the way `resolve` does. -/
def put (i : Insn) (_ : Unit) (n : Nat) : Insn := { i with off := Int16.ofNat n }

theorem put_put (i : Insn) (k : Unit) (n : Nat) : (i.put k n).put k n = i.put k n := rfl

end Insn

end PktBaffle.Ebpf
