import PktBaffle.Bpf
import PktBaffle.Forward.Machine

namespace PktBaffle.Vm
open Bpf Forward

abbrev Packet := List UInt8

/-- Why `inner` returns `None`. The source has one `None`; the cases are its `?` operators
and early returns. -/
inductive Stop where
  | packetLoad
  | scratchIndex
  | divByZero
  | unknownOpcode
  deriving DecidableEq, Repr

structure Regs where
  a : UInt32
  x : UInt32
  scratch : Vector UInt32 16

def Regs.start : Regs := ⟨0, 0, Vector.replicate 16 0⟩

def fromBe4 (b0 b1 b2 b3 : UInt8) : UInt32 :=
  UInt32.ofNat (b0.toNat * 2 ^ 24 + b1.toNat * 2 ^ 16 + b2.toNat * 2 ^ 8 + b3.toNat)

def fromBe2 (b0 b1 : UInt8) : UInt32 := UInt32.ofNat (b0.toNat * 2 ^ 8 + b1.toNat)

def word (pkt : Packet) (off : UInt32) : Option UInt32 :=
  match pkt.drop off.toNat with
  | b0 :: b1 :: b2 :: b3 :: _ => some (fromBe4 b0 b1 b2 b3)
  | _ => none

def half (pkt : Packet) (off : UInt32) : Option UInt32 :=
  match pkt.drop off.toNat with
  | b0 :: b1 :: _ => some (fromBe2 b0 b1)
  | _ => none

def byte (pkt : Packet) (off : UInt32) : Option UInt32 :=
  match pkt.drop off.toNat with
  | b0 :: _ => some b0.toUInt32
  | _ => none

def sizedLoad (pkt : Packet) (off : UInt32) (size : UInt16) : Option UInt32 :=
  if size = bpfW then word pkt off
  else if size = bpfH then half pkt off
  else if size = bpfB then byte pkt off
  else none

/-- `pkt.len() as u32`. -/
def pktLen (pkt : Packet) : UInt32 := UInt32.ofNat pkt.length

/-- True if the second operand of an ALU or JMP instruction is `X`. -/
def usesX (insn : Insn) : Bool := insn.code &&& 0x08 == bpfX

def orStop (e : Stop) : Option α → Except Stop α
  | some v => .ok v
  | none => .error e

/-- The `BPF_ALU` operations. -/
def alu (op : UInt16) (a v : UInt32) : Except Stop UInt32 :=
  if op = bpfAdd then .ok (a + v)
  else if op = bpfSub then .ok (a - v)
  else if op = bpfMul then .ok (a * v)
  else if op = bpfDiv then (if v = 0 then .error .divByZero else .ok (a / v))
  else if op = bpfOr then .ok (a ||| v)
  else if op = bpfAnd then .ok (a &&& v)
  else if op = bpfLsh then .ok (a <<< (v &&& 31))
  else if op = bpfRsh then .ok (a >>> (v &&& 31))
  else if op = bpfNeg then .ok (0 - a)
  else if op = bpfXor then .ok (a ^^^ v)
  else .error .unknownOpcode

/-- The `BPF_JMP` comparisons. -/
def taken (op : UInt16) (a v : UInt32) : Except Stop Bool :=
  if op = bpfJeq then .ok (a == v)
  else if op = bpfJgt then .ok (decide (v < a))
  else if op = bpfJge then .ok (decide (v ≤ a))
  else if op = bpfJset then .ok (a &&& v != 0)
  else .error .unknownOpcode

def loadA (pkt : Packet) (insn : Insn) (s : Regs) : Except Stop UInt32 :=
  let mode := insn.code &&& 0xe0
  if mode = bpfAbs then orStop .packetLoad (sizedLoad pkt insn.k (insn.code &&& 0x18))
  else if mode = bpfInd then orStop .packetLoad (sizedLoad pkt (s.x + insn.k) (insn.code &&& 0x18))
  else if mode = bpfLen then .ok (pktLen pkt)
  else if mode = bpfImm then .ok insn.k
  else if mode = bpfMem then orStop .scratchIndex s.scratch[insn.k.toNat]?
  else .error .unknownOpcode

def loadX (pkt : Packet) (insn : Insn) (s : Regs) : Except Stop UInt32 :=
  let size := insn.code &&& 0x18
  let mode := insn.code &&& 0xe0
  if size = bpfB ∧ mode = bpfMsh then
    (orStop .packetLoad (byte pkt insn.k)).map (fun b => 4 * (b &&& 0xf))
  else if mode = bpfImm then .ok insn.k
  else if mode = bpfMem then orStop .scratchIndex s.scratch[insn.k.toNat]?
  else if mode = bpfLen then .ok (pktLen pkt)
  else .error .unknownOpcode

def store (s : Regs) (i : UInt32) (v : UInt32) : Except Stop Regs :=
  if h : i.toNat < 16 then .ok { s with scratch := s.scratch.set i.toNat v } else .error .scratchIndex

/-- One turn of the loop of `inner`: the effect of `insn` on the registers and where the
program counter goes. -/
def act (pkt : Packet) (insn : Insn) (s : Regs) : Except Stop (Move Slot Regs Bool) :=
  let cls := insn.code &&& 0x07
  if cls = bpfLd then (loadA pkt insn s).map (fun v => .next { s with a := v })
  else if cls = bpfLdx then (loadX pkt insn s).map (fun v => .next { s with x := v })
  else if cls = bpfSt then (store s insn.k s.a).map .next
  else if cls = bpfStx then (store s insn.k s.x).map .next
  else if cls = bpfAlu then
    (alu (insn.code &&& 0xf0) s.a (if usesX insn then s.x else insn.k)).map
      (fun v => .next { s with a := v })
  else if cls = bpfJmp then
    let op := insn.code &&& 0xf0
    if op = bpfJa then .ok (.jump .ja s)
    else (taken op s.a (if usesX insn then s.x else insn.k)).map
      (fun b => .jump (if b then .jt else .jf) s)
  else if cls = bpfRet then
    .ok (.halt ((if insn.code &&& 0x10 ≠ 0 then s.a else insn.k) != 0))
  else if cls = bpfMisc then
    .ok (.next (if insn.code &&& 0x80 ≠ 0 then { s with a := s.x } else { s with x := s.a }))
  else .error .unknownOpcode

/-- The interpreter as a forward machine: `pc` only grows, by one and then by the taken
displacement, so it is the position in the program. -/
def machine (pkt : Packet) : Machine Insn Slot Regs Stop Bool where
  act := act pkt
  tgt i k := .skip (i.off k)

/-- How a run over the whole program ends. -/
def exec (insns : List Insn) (pkt : Packet) : Result Stop Regs Bool :=
  (machine pkt).run insns 0 .start

/-- `None` for every fault, also for a `pc` past the end of the program. -/
def inner (insns : List Insn) (pkt : Packet) : Option Bool :=
  match exec insns pkt with
  | .halt b => some b
  | _ => none

/-- True if `insns` accepts `pkt`, false if it drops or errors. -/
def run (insns : List Insn) (pkt : Packet) : Bool := (inner insns pkt).getD false

example : run [.ldhAbs 12, .jeqK 0x0800 0 1, .retK bpfAccept, .retK 0]
    [0, 0, 0, 0, 0, 0, 0, 0, 0, 0, 0, 0, 8, 0] = true := by decide

example : inner [.ldhAbs 1000, .retK bpfAccept] [1, 2, 3] = none := by decide

end PktBaffle.Vm
