import PktBaffle.Bpf

namespace PktBaffle.Optimizer
open Bpf

def isJa (insn : Insn) : Bool :=
  insn.code &&& 0x07 == bpfJmp && insn.code &&& 0xf0 == bpfJa

def isCondJump (insn : Insn) : Bool :=
  insn.code &&& 0x07 == bpfJmp && insn.code &&& 0xf0 != bpfJa

/-- Class and mode of an absolute load; the mask clears the size bits. -/
def isLdAbs (insn : Insn) : Bool := insn.code &&& 0xe7 == bpfLd ||| bpfAbs

def isRet (insn : Insn) : Bool := insn.code &&& 0x07 == bpfRet

/-- True if executing `insn` writes the accumulator. -/
def writesA (insn : Insn) : Bool :=
  insn.code &&& 0x07 == bpfLd || insn.code &&& 0x07 == bpfAlu ||
    (insn.code &&& 0x07 == bpfMisc && insn.code &&& 0xf8 == bpfTxa)

/-- Index a jump at `i` with displacement `d` leads to. -/
def target (i d : Nat) : Nat := i + 1 + d

/-- `fin[t]`, or `t` itself when it lies outside the program. -/
def finalTarget (fin : List Nat) (t : Nat) : Nat := (fin[t]?).getD t

/-- Body of the loop that fills `fin` from the back. -/
def finStep (insns : List Insn) (fin : List Nat) (i : Nat) : List Nat :=
  match insns[i]? with
  | some insn => if isJa insn then fin.set i (finalTarget fin (target i insn.k.toNat)) else fin
  | none => fin

/-- `fin[i]`: the final target of index `i`, computed back to front. -/
def finTable (insns : List Insn) : List Nat :=
  (List.range insns.length).reverse.foldl (finStep insns) (List.range insns.length)

/-- Distance from `i` to the final target of `t`. -/
def threadDist (fin : List Nat) (i t : Nat) : Nat := finalTarget fin t - i - 1

/-- `u8::try_from`: a retarget that would overflow 255 is left alone. -/
def narrow (d : Nat) (old : UInt8) : UInt8 := if d ≤ 255 then UInt8.ofNat d else old

def threadInsn (fin : List Nat) (i : Nat) (insn : Insn) : Insn :=
  if isJa insn then { insn with k := UInt32.ofNat (threadDist fin i (target i insn.k.toNat)) }
  else if isCondJump insn then
    { insn with
      jt := narrow (threadDist fin i (target i insn.jt.toNat)) insn.jt
      jf := narrow (threadDist fin i (target i insn.jf.toNat)) insn.jf }
  else insn

/-- Retarget every jump that lands on a `ja` to the final destination of the `ja`. -/
def threadJumps (insns : List Insn) : List Insn :=
  insns.mapIdx (threadInsn (finTable insns))

/-- What the accumulator is known to hold at a program point. -/
inductive AState where
  | unknown
  | load (code : UInt16) (k : UInt32)
  deriving DecidableEq, Repr

def meet (slot : Option AState) (incoming : AState) : Option AState :=
  match slot with
  | none => some incoming
  | some prev => if prev = incoming then some incoming else some .unknown

/-- `meet` into entry `t` of the table; an index outside the program is ignored. -/
def meetAt (inState : List (Option AState)) (t : Nat) (out : AState) : List (Option AState) :=
  inState.modify t (meet · out)

/-- What the accumulator holds behind `insn`. -/
def transfer (insn : Insn) (state : AState) : AState :=
  if isLdAbs insn then .load insn.code insn.k
  else if writesA insn then .unknown
  else state

/-- The indices an instruction at `i` hands control to. -/
def succs (i : Nat) (insn : Insn) : List Nat :=
  if isRet insn then []
  else if isJa insn then [target i insn.k.toNat]
  else if isCondJump insn then [target i insn.jt.toNat, target i insn.jf.toNat]
  else [i + 1]

/-- Body of the in-order sweep. -/
def sweepStep (insns : List Insn) (st : List Bool × List (Option AState)) (i : Nat) :
    List Bool × List (Option AState) :=
  match insns[i]?, st.2[i]? with
  | some insn, some (some state) =>
    (if isLdAbs insn && state == .load insn.code insn.k then st.1.set i true else st.1,
      (succs i insn).foldl (fun inState t => meetAt inState t (transfer insn state)) st.2)
  | _, _ => st

/-- The table before the sweep: only the entry is known to be reached. -/
def entryStates (insns : List Insn) : List (Option AState) :=
  (List.replicate insns.length none).set 0 (some .unknown)

def sweep (insns : List Insn) : List Bool × List (Option AState) :=
  (List.range insns.length).foldl (sweepStep insns)
    (List.replicate insns.length false, entryStates insns)

/-- Mark absolute loads whose value is already in the accumulator on every path that
reaches them. -/
def redundantLoadMarks (insns : List Insn) : List Bool := (sweep insns).1

/-- The worklist loop of `reachable_marks`. Each index is marked once and pushes at most
two more, so `fuel` counts the pops that are left. -/
def reachLoop (insns : List Insn) : Nat → List Nat → List Bool → List Bool
  | 0, _, reachable => reachable
  | _ + 1, [], reachable => reachable
  | fuel + 1, i :: stack, reachable =>
    match insns[i]? with
    | none => reachLoop insns fuel stack reachable
    | some insn =>
      if reachable[i]? = some true then reachLoop insns fuel stack reachable
      else reachLoop insns fuel ((succs i insn).reverse ++ stack) (reachable.set i true)

/-- Reachability from instruction 0. -/
def reachableMarks (insns : List Insn) : List Bool :=
  reachLoop insns (2 * insns.length + 1) [0] (List.replicate insns.length false)

/-- Number of kept instructions before each index, and in total. -/
def newIndexFrom : List Bool → Nat → List Nat
  | [], count => [count]
  | k :: ks, count => count :: newIndexFrom ks (count + k.toNat)

def newIndex (keep : List Bool) : List Nat := newIndexFrom keep 0

/-- New position of old index `t`; indices past the end map to the end. -/
def newPos (keep : List Bool) (t : Nat) : Nat :=
  ((newIndex keep)[min t keep.length]?).getD 0

def renumber (keep : List Bool) (i : Nat) (insn : Insn) : Insn :=
  if isJa insn then
    { insn with
      k := UInt32.ofNat (newPos keep (target i insn.k.toNat) - newPos keep i - 1) }
  else if isCondJump insn then
    { insn with
      jt := UInt8.ofNat (newPos keep (target i insn.jt.toNat) - newPos keep i - 1)
      jf := UInt8.ofNat (newPos keep (target i insn.jf.toNat) - newPos keep i - 1) }
  else insn

/-- Drop instructions not marked `keep`, recomputing every jump offset. -/
def removeUnkept (insns : List Insn) (keep : List Bool) : List Insn :=
  if keep.all id then insns
  else insns.zipIdx.filterMap (fun (insn, i) =>
    if keep[i]? = some true then some (renumber keep i insn) else none)

def keepMarks (insns : List Insn) : List Bool :=
  let redundant := redundantLoadMarks insns
  let reachable := reachableMarks insns
  insns.mapIdx (fun i insn =>
    reachable[i]? == some true && redundant[i]? != some true && !(isJa insn && insn.k == 0))

/-- Run all peephole passes over a fully patched program. -/
def optimize (insns : List Insn) : List Insn :=
  let threaded := threadJumps insns
  removeUnkept threaded (keepMarks threaded)

example : optimize [.ldhAbs 12, .jeqK 0x0800 0 2, .ja 0, .retK bpfAccept, .retK bpfDrop] =
    [.ldhAbs 12, .jeqK 0x0800 0 1, .retK bpfAccept, .retK bpfDrop] := by decide

example : optimize [.ldbAbs 23, .jeqK 6 2 0, .ldbAbs 23, .jeqK 17 0 1, .retK bpfAccept,
      .retK bpfDrop] =
    [.ldbAbs 23, .jeqK 6 1 0, .jeqK 17 0 1, .retK bpfAccept, .retK bpfDrop] := by decide

end PktBaffle.Optimizer
