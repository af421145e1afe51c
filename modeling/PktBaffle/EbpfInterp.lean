import PktBaffle.Ebpf
import PktBaffle.Forward.Machine
import PktBaffle.Vm

namespace PktBaffle.Ebpf
open Forward Vm

def bpfNeg : UInt8 := 0x80
def bpfMod : UInt8 := 0x90
def bpfArsh : UInt8 := 0xc0
def bpfJsgt : UInt8 := 0x60
def bpfJsge : UInt8 := 0x70
def bpfJslt : UInt8 := 0xc0
def bpfJsle : UInt8 := 0xd0

def aluOps : List UInt8 :=
  [bpfAdd, bpfSub, bpfMul, bpfDiv, bpfOr, bpfAnd, bpfLsh, bpfRsh, bpfNeg, bpfMod, bpfXor, bpfMov,
    bpfArsh, bpfEnd]

def condOps : List UInt8 :=
  [bpfJeq, bpfJne, bpfJgt, bpfJge, bpfJlt, bpfJle, bpfJset, bpfJsgt, bpfJsge, bpfJslt, bpfJsle]

/-- Address of the `xdp_md` context. -/
def ctxBase : UInt64 := 0x20000000
/-- Address of the first packet byte. -/
def pktBase : UInt64 := 0x10000002

/-- Byte order of the simulated host. -/
inductive Endian where
  | little
  | big
  deriving DecidableEq, Repr

def Endian.read (host : Endian) (bytes : List UInt8) : UInt64 :=
  match host with
  | .little => bytes.reverse.foldl (fun v b => (v <<< 8) ||| b.toUInt64) 0
  | .big => bytes.foldl (fun v b => (v <<< 8) ||| b.toUInt64) 0

/-- The bytes of a `u32` in memory. -/
def Endian.store (host : Endian) (v : UInt32) : List UInt8 :=
  let be := [(v >>> 24).toUInt8, (v >>> 16).toUInt8, (v >>> 8).toUInt8, v.toUInt8]
  match host with
  | .little => be.reverse
  | .big => be

inductive Verdict where
  | matched
  | noMatch
  deriving DecidableEq, Repr

/-- A run that did not end in a clean verdict. -/
inductive Fault where
  | unknownOpcode (pc : Nat) (code : UInt8)
  | badRegister (pc : Nat)
  | writeToR10 (pc : Nat)
  | uninitRegister (pc : Nat) (reg : Fin 11)
  | outOfBounds (pc : Nat) (addr : UInt64) (size : Nat)
  | badCtxAccess (pc : Nat) (addr : UInt64) (size : Nat)
  | jumpOutOfRange (pc : Nat)
  | pcOutOfRange (pc : Nat)
  | divByZero (pc : Nat)
  | badShift (pc : Nat)
  | badEndWidth (pc : Nat) (imm : Int32)
  | badReturn (r0 : UInt64)
  | stepLimit
  deriving DecidableEq

structure Regs where
  v : Vector UInt64 11
  init : Vector Bool 11
  deriving DecidableEq

namespace Regs

def rd (s : Regs) (r : Fin 11) (pc : Nat) : Except Fault UInt64 :=
  if s.init[r] then .ok s.v[r] else .error (.uninitRegister pc r)

def wr (s : Regs) (r : Fin 11) (val : UInt64) (pc : Nat) : Except Fault Regs :=
  if r = 10 then .error (.writeToR10 pc)
  else .ok ⟨s.v.set r val, s.init.set r true⟩

/-- The value of a register that has been written. -/
def get (s : Regs) (r : Fin 11) : Option UInt64 := if s.init[r] then some s.v[r] else none

def set (s : Regs) (r : Fin 11) (x : UInt64) : Regs := ⟨s.v.set r x, s.init.set r true⟩

/-- The registers on entry: the context in R1, and R10. -/
def start : Regs where
  v := (Vector.replicate 11 0).set 1 ctxBase
  init := ((Vector.replicate 11 false).set 1 true).set 10 true

end Regs

/-- The `xdp_md` in host byte order. -/
def context (pkt : Packet) (host : Endian) : List UInt8 :=
  host.store pktBase.toUInt32 ++ host.store (pktBase + UInt64.ofNat pkt.length).toUInt32

/-- Resolve a load against the context and the packet. -/
def load (ctx : List UInt8) (pkt : Packet) (addr : UInt64) (size pc : Nat) :
    Except Fault (List UInt8) :=
  if ctxBase ≤ addr ∧ addr < ctxBase + 8 then
    let off := (addr - ctxBase).toNat
    if size ≠ 4 ∨ off &&& 3 ≠ 0 then .error (.badCtxAccess pc addr size)
    else .ok ((ctx.drop off).take 4)
  else if pktBase ≤ addr ∧ (addr - pktBase).toNat + size ≤ pkt.length then
    .ok ((pkt.drop (addr - pktBase).toNat).take size)
  else .error (.outOfBounds pc addr size)

/-- Sign extension of an immediate or a displacement. -/
def sext (i : Int) : UInt64 := UInt64.ofInt i

/-- The bytes in the opposite order. -/
def swapBytes16 (v : UInt16) : UInt16 := (fromBe2 v.toUInt8 (v >>> 8).toUInt8).toUInt16

def swapBytes32 (v : UInt32) : UInt32 :=
  fromBe4 v.toUInt8 (v >>> 8).toUInt8 (v >>> 16).toUInt8 (v >>> 24).toUInt8

def swapBytes64 (v : UInt64) : UInt64 :=
  ((swapBytes32 v.toUInt32).toUInt64 <<< 32) ||| (swapBytes32 (v >>> 32).toUInt32).toUInt64

/-- `BPF_END`: `swap` says whether the host order differs from the wanted one. -/
def endian (imm : Int32) (swap : Bool) (v : UInt64) (pc : Nat) : Except Fault UInt64 :=
  if imm = 16 then
    .ok (if swap then (swapBytes16 v.toUInt16).toUInt64 else v.toUInt16.toUInt64)
  else if imm = 32 then
    .ok (if swap then (swapBytes32 v.toUInt32).toUInt64 else v.toUInt32.toUInt64)
  else if imm = 64 then .ok (if swap then swapBytes64 v else v)
  else .error (.badEndWidth pc imm)

/-- A shift amount that fits the width. -/
def shift (is64 : Bool) (s : UInt64) (pc : Nat) : Except Fault UInt64 :=
  if s < (if is64 then 64 else 32) then .ok s else .error (.badShift pc)

/-- The arithmetic of an ALU operation on operands already cut to the width. -/
def alu (is64 : Bool) (op : UInt8) (d s : UInt64) (pc : Nat) (code : UInt8) :
    Except Fault UInt64 :=
  if op = bpfAdd then .ok (d + s)
  else if op = bpfSub then .ok (d - s)
  else if op = bpfMul then .ok (d * s)
  else if op = bpfDiv then (if s = 0 then .error (.divByZero pc) else .ok (d / s))
  else if op = bpfMod then (if s = 0 then .error (.divByZero pc) else .ok (d % s))
  else if op = bpfOr then .ok (d ||| s)
  else if op = bpfAnd then .ok (d &&& s)
  else if op = bpfXor then .ok (d ^^^ s)
  else if op = bpfLsh then (shift is64 s pc).map (d <<< ·)
  else if op = bpfRsh then (shift is64 s pc).map (d >>> ·)
  else if op = bpfArsh then
    (shift is64 s pc).map fun n =>
      if is64 then (d.toInt64 >>> n.toInt64).toUInt64
      else (d.toUInt32.toInt32 >>> n.toUInt32.toInt32).toUInt32.toUInt64
  else if op = bpfNeg then .ok (0 - d)
  else if op = bpfMov then .ok s
  else .error (.unknownOpcode pc code)

/-- The comparison of a conditional jump. -/
def taken (op : UInt8) (a b : UInt64) (sa sb : Int64) : Bool :=
  if op = bpfJeq then a == b
  else if op = bpfJne then a != b
  else if op = bpfJgt then decide (b < a)
  else if op = bpfJge then decide (b ≤ a)
  else if op = bpfJlt then decide (a < b)
  else if op = bpfJle then decide (a ≤ b)
  else if op = bpfJset then a &&& b != 0
  else if op = bpfJsgt then decide (sb < sa)
  else if op = bpfJsge then decide (sb ≤ sa)
  else if op = bpfJslt then decide (sa < sb)
  else decide (sa ≤ sb)

/-- Bytes of a memory access. -/
def accessSize (code : UInt8) : Nat :=
  let size := code &&& 0x18
  if size = bpfB then 1 else if size = bpfH then 2 else if size = bpfW then 4 else 8

section Act

variable (pkt : Packet) (host : Endian)

def actLdx (pc : Nat) (insn : Insn) (dst src : Fin 11) (s : Regs) :
    Except Fault (Move Unit Regs UInt64) := do
  if insn.code &&& 0xe0 ≠ bpfMem then throw (.unknownOpcode pc insn.code)
  let size := accessSize insn.code
  let addr := (← s.rd src pc) + sext insn.off.toInt
  let bytes ← load (context pkt host) pkt addr size pc
  return .next (← s.wr dst (host.read bytes) pc)

def actAlu (pc : Nat) (insn : Insn) (dst src : Fin 11) (s : Regs) :
    Except Fault (Move Unit Regs UInt64) := do
  let is64 : Bool := insn.code &&& 0x07 == bpfAlu64
  let op := insn.code &&& 0xf0
  if op ∉ aluOps then throw (.unknownOpcode pc insn.code)
  if op = bpfEnd then
    if is64 then throw (.unknownOpcode pc insn.code)
    let v ← s.rd dst pc
    let swap : Bool := match host with
      | .little => insn.code &&& 0x08 == bpfToBe
      | .big => insn.code &&& 0x08 == bpfToLe
    let out ← endian insn.imm swap v pc
    return .next (← s.wr dst out pc)
  let sv ← if insn.code &&& bpfX ≠ 0 then s.rd src pc
    else pure (if is64 then sext insn.imm.toInt else insn.imm.toUInt32.toUInt64)
  let dv ← if op = bpfMov then pure 0 else s.rd dst pc
  let mask : UInt64 := if is64 then 0xffffffffffffffff else 0xffffffff
  let r ← alu is64 op (dv &&& mask) (sv &&& mask) pc insn.code
  return .next (← s.wr dst (r &&& mask) pc)

def actJmp (pc : Nat) (insn : Insn) (dst src : Fin 11) (s : Regs) :
    Except Fault (Move Unit Regs UInt64) := do
  let is32 : Bool := insn.code &&& 0x07 == bpfJmp32
  let op := insn.code &&& 0xf0
  if ¬(op ∈ condOps ∨ (¬is32 ∧ (op = bpfJa ∨ op = bpfExit))) then
    throw (.unknownOpcode pc insn.code)
  if ¬is32 ∧ op = bpfExit then return .halt (← s.rd 0 pc)
  if ¬is32 ∧ op = bpfJa then return .jump () s
  let a ← s.rd dst pc
  let b ← if insn.code &&& bpfX ≠ 0 then s.rd src pc else pure (sext insn.imm.toInt)
  let hit := if is32 then
      taken op a.toUInt32.toUInt64 b.toUInt32.toUInt64 a.toUInt32.toInt32.toInt64
        b.toUInt32.toInt32.toInt64
    else taken op a b a.toInt64 b.toInt64
  return if hit then .jump () s else .next s

/-- The effect of the instruction at `pc`: the body of the loop of `exec`, with the jump it
takes left to the caller. -/
def act (pc : Nat) (insn : Insn) (s : Regs) : Except Fault (Move Unit Regs UInt64) :=
  if h : insn.dst.toNat < 11 ∧ insn.src.toNat < 11 then
    let dst : Fin 11 := ⟨insn.dst.toNat, h.1⟩
    let src : Fin 11 := ⟨insn.src.toNat, h.2⟩
    let cls := insn.code &&& 0x07
    if cls = bpfLdx then actLdx pkt host pc insn dst src s
    else if cls = bpfAlu ∨ cls = bpfAlu64 then actAlu host pc insn dst src s
    else if cls = bpfJmp ∨ cls = bpfJmp32 then actJmp pc insn dst src s
    else .error (.unknownOpcode pc insn.code)
  else .error (.badRegister pc)

variable (prog : List Insn)

/-- The loop of `exec` from `pc` on, with `limit` turns left. -/
def execFrom : Nat → Nat → Regs → Except Fault UInt64
  | 0, _, _ => .error .stepLimit
  | limit + 1, pc, s =>
    match prog[pc]? with
    | none => .error (.pcOutOfRange pc)
    | some insn =>
      match act pkt host pc insn s with
      | .error e => .error e
      | .ok (.halt r) => .ok r
      | .ok (.next s') => execFrom limit (pc + 1) s'
      | .ok (.jump _ s') =>
        let t : Int := pc + 1 + insn.off.toInt
        if t < 0 ∨ (prog.length : Int) ≤ t then .error (.jumpOutOfRange pc)
        else execFrom limit t.toNat s'

/-- The value of R0 at `exit`, within `limit` turns. -/
def exec (limit : Nat) : Except Fault UInt64 := execFrom pkt host prog limit 0 .start

/-- Run a program as an XDP program, within `limit` turns. -/
def runWithin (limit : Nat) : Except Fault Verdict := do
  let r0 ← exec pkt host prog limit
  if r0 = sext xdpPass.toInt then return .matched
  else if r0 = sext xdpDrop.toInt then return .noMatch
  else throw (.badReturn r0)

/-- Upper bound on executed instructions. -/
def stepLimit : Nat := 2 ^ 16

def runEbpf : Except Fault Verdict := runWithin pkt host prog stepLimit

end Act

end PktBaffle.Ebpf
