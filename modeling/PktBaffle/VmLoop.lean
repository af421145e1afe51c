import PktBaffle.Ast
import PktBaffle.Usize
import PktBaffle.Vm

namespace PktBaffle.VmLoop
open Bpf Vm

/-- What an expression of `inner` ends with besides a value: `None` through `?` or `return`,
or a panic. -/
abbrev Try := OptionT (Except Error)

/-- `o?`. -/
def try_ {α : Type} (o : Option α) : Try α := OptionT.mk (.ok o)

/-- The value of an operation that panics where it has none. -/
def strict {α : Type} (message : String) : Option α → Try α
  | some v => OptionT.mk (.ok (some v))
  | none => OptionT.mk (.error (.panic message))

/-- `bytes[i]`. -/
def index (bytes : List UInt8) (i : Nat) : Try UInt8 := strict "index out of bounds" bytes[i]?

/-- `pkt.get(a..b)`. -/
def getRange (pkt : Packet) (a b : Nat) : Option (List UInt8) :=
  if a ≤ b ∧ b ≤ pkt.length then some ((pkt.drop a).take (b - a)) else none

/-- `a + b` on `usize`. -/
def add (w a b : Nat) : Try Nat := strict "attempt to add with overflow" (Usize.checkedAdd w a b)

/-- `a * b` on `u32`. -/
def mul (a b : UInt32) : Try UInt32 :=
  strict "attempt to multiply with overflow" ((Usize.checkedMul 32 a.toNat b.toNat).map .ofNat)

/-- `a / v` on `u32`. -/
def div (a v : UInt32) : Try UInt32 :=
  strict "attempt to divide by zero" (if v = 0 then none else some (a / v))

/-- `a << n` on `u32`. -/
def shl (a n : UInt32) : Try UInt32 :=
  strict "attempt to shift left with overflow" (if n < 32 then some (a <<< n) else none)

/-- `a >> n` on `u32`. -/
def shr (a n : UInt32) : Try UInt32 :=
  strict "attempt to shift right with overflow" (if n < 32 then some (a >>> n) else none)

def sizedLoad (w : Nat) (pkt : Packet) (off : UInt32) (size : UInt16) : Try UInt32 := do
  let off := off.toNat
  if size = bpfW then
    let b ← try_ (getRange pkt off (← try_ (Usize.checkedAdd w off 4)))
    return fromBe4 (← index b 0) (← index b 1) (← index b 2) (← index b 3)
  else if size = bpfH then
    let b ← try_ (getRange pkt off (← try_ (Usize.checkedAdd w off 2)))
    return fromBe2 (← index b 0) (← index b 1)
  else if size = bpfB then return (← try_ pkt[off]?).toUInt32
  else failure

/-- The locals of `inner`. -/
structure State where
  regs : Regs
  pc : Nat

def State.start : State := ⟨.start, 0⟩

def loadA (w : Nat) (pkt : Packet) (insn : Insn) (s : Regs) : Try UInt32 :=
  let mode := insn.code &&& 0xe0
  if mode = bpfAbs then sizedLoad w pkt insn.k (insn.code &&& 0x18)
  else if mode = bpfInd then sizedLoad w pkt (s.x + insn.k) (insn.code &&& 0x18)
  else if mode = bpfLen then return pktLen pkt
  else if mode = bpfImm then return insn.k
  else if mode = bpfMem then try_ s.scratch[insn.k.toNat]?
  else failure

def loadX (pkt : Packet) (insn : Insn) (s : Regs) : Try UInt32 := do
  let size := insn.code &&& 0x18
  let mode := insn.code &&& 0xe0
  if size = bpfB ∧ mode = bpfMsh then
    let b ← try_ pkt[insn.k.toNat]?
    mul 4 (b.toUInt32 &&& 0xf)
  else if mode = bpfImm then return insn.k
  else if mode = bpfMem then try_ s.scratch[insn.k.toNat]?
  else if mode = bpfLen then return pktLen pkt
  else failure

/-- `*scratch.get_mut(i)? = v`. -/
def store (s : Regs) (i : UInt32) (v : UInt32) : Try Regs :=
  if h : i.toNat < 16 then return { s with scratch := s.scratch.set i.toNat v } else failure

def alu (op : UInt16) (a v : UInt32) : Try UInt32 :=
  if op = bpfAdd then return a + v
  else if op = bpfSub then return a - v
  else if op = bpfMul then return a * v
  else if op = bpfDiv then if v = 0 then failure else div a v
  else if op = bpfOr then return a ||| v
  else if op = bpfAnd then return a &&& v
  else if op = bpfLsh then shl a (v &&& 31)
  else if op = bpfRsh then shr a (v &&& 31)
  else if op = bpfNeg then return 0 - a
  else if op = bpfXor then return a ^^^ v
  else failure

def taken (op : UInt16) (a v : UInt32) : Try Bool :=
  if op = bpfJeq then return a == v
  else if op = bpfJgt then return decide (v < a)
  else if op = bpfJge then return decide (v ≤ a)
  else if op = bpfJset then return a &&& v != 0
  else failure

/-- One turn of the loop: the next state, or the value `inner` returns. -/
def turn (w : Nat) (insns : List Insn) (pkt : Packet) (st : State) : Try (State ⊕ Bool) := do
  let insn ← try_ insns[st.pc]?
  let s := st.regs
  let pc ← add w st.pc 1
  let cls := insn.code &&& 0x07
  if cls = bpfLd then return .inl ⟨{ s with a := ← loadA w pkt insn s }, pc⟩
  else if cls = bpfLdx then return .inl ⟨{ s with x := ← loadX pkt insn s }, pc⟩
  else if cls = bpfSt then return .inl ⟨← store s insn.k s.a, pc⟩
  else if cls = bpfStx then return .inl ⟨← store s insn.k s.x, pc⟩
  else if cls = bpfAlu then
    let v := if usesX insn then s.x else insn.k
    return .inl ⟨{ s with a := ← alu (insn.code &&& 0xf0) s.a v }, pc⟩
  else if cls = bpfJmp then
    let op := insn.code &&& 0xf0
    if op = bpfJa then return .inl ⟨s, Usize.wrappingAdd w pc insn.k.toNat⟩
    else
      let v := if usesX insn then s.x else insn.k
      let dist := if ← taken op s.a v then insn.jt.toNat else insn.jf.toNat
      return .inl ⟨s, ← add w pc dist⟩
  else if cls = bpfRet then
    return .inr ((if insn.code &&& 0x10 ≠ 0 then s.a else insn.k) != 0)
  else if cls = bpfMisc then
    if insn.code &&& 0x80 ≠ 0 then return .inl ⟨{ s with a := s.x }, pc⟩
    else return .inl ⟨{ s with x := s.a }, pc⟩
  else failure

/-- Where a run stands after some instructions. -/
inductive Outcome where
  | ended (r : Option Bool)
  | panicked (e : Error)
  | running (st : State)

/-- The loop of `inner`, for as long as it executes at most `n` instructions. -/
def runFor (w : Nat) (insns : List Insn) (pkt : Packet) : Nat → State → Outcome
  | n, st =>
    if st.pc < insns.length then
      match n with
      | 0 => .running st
      | n + 1 =>
        match (turn w insns pkt st).run with
        | .error e => .panicked e
        | .ok none => .ended none
        | .ok (some (.inl st)) => runFor w insns pkt n st
        | .ok (some (.inr b)) => .ended (some b)
    else .ended none

end PktBaffle.VmLoop
