import PktBaffle.Ast
import PktBaffle.Optimizer

namespace PktBaffle.Optimizer
open Bpf

/-- `*field -= 1` in a branch whose target is not in front of the removed instruction. -/
def adjustField (removedIdx src : Nat) (field : UInt8) : UInt8 :=
  if removedIdx ≤ target src field.toNat ∧ 0 < field then field - 1 else field

/-- The body of the loop of `adjust_jumps`. The displacement of an unconditional jump is
decremented unguarded, so the model checks it. -/
def adjustInsn (removedIdx src : Nat) (insn : Insn) : Except Error Insn :=
  if insn.code &&& 0x07 ≠ bpfJmp then .ok insn
  -- Jumps behind the removed instruction have moved together with their targets.
  else if removedIdx ≤ src then .ok insn
  else if insn.code &&& 0xf0 = bpfJa then
    if removedIdx ≤ target src insn.k.toNat then
      if insn.k = 0 then .error (.panic "attempt to subtract with overflow")
      else .ok { insn with k := insn.k - 1 }
    else .ok insn
  else .ok { insn with
    jt := adjustField removedIdx src insn.jt
    jf := adjustField removedIdx src insn.jf }

/-- The loop of `adjust_jumps` from index `src` on. -/
def adjustFrom (removedIdx : Nat) : Nat → List Insn → Except Error (List Insn)
  | _, [] => .ok []
  | src, insn :: rest => do
    let insn ← adjustInsn removedIdx src insn
    let rest ← adjustFrom removedIdx (src + 1) rest
    return insn :: rest

/-- Decrement all jump displacements that cross `removedIdx`. -/
def adjustJumps (insns : List Insn) (removedIdx : Nat) : Except Error (List Insn) :=
  adjustFrom removedIdx 0 insns

/-- Two absolute loads of the same size from the same place. -/
def isTwin (cur nxt : Insn) : Bool :=
  isLdAbs cur && isLdAbs nxt && cur.code == nxt.code && cur.k == nxt.k

/-- The loop of `dedup_loads`; `fuel` bounds its turns. -/
def dedupLoop : Nat → Nat → List Insn → Except Error (List Insn)
  | fuel, i, insns =>
    match insns[i]?, insns[i + 1]? with
    | some cur, some nxt =>
      match fuel with
      | 0 => .error (.panic "out of fuel")
      | fuel + 1 =>
        if isTwin cur nxt then do
          let insns ← adjustJumps (insns.eraseIdx (i + 1)) (i + 1)
          dedupLoop fuel i insns
        else dedupLoop fuel (i + 1) insns
    | _, _ => .ok insns

/-- Remove consecutive identical absolute loads. -/
def dedupLoads (insns : List Insn) : Except Error (List Insn) :=
  if insns.isEmpty then .ok insns else dedupLoop insns.length 0 insns

example : dedupLoads [.ldbAbs 9, .jeqK 6 1 2, .ldhAbs 12, .ldhAbs 12, .retK 0] =
    .ok [.ldbAbs 9, .jeqK 6 0 1, .ldhAbs 12, .retK 0] := by decide

end PktBaffle.Optimizer
