import PktBaffle.Forward.Branch
import PktBaffle.Proofs.Classic.Verdict

namespace PktBaffle.Proofs.Classic
open Bpf Forward PktBaffle.Classic PktBaffle.Optimizer PktBaffle.Proofs.Optimizer

/-- A comparison of the filter language, on 32-bit values. -/
def cmpVal (op : CmpOp) (v w : UInt32) : Bool :=
  match op with
  | .eq => v == w
  | .ne => v != w
  | .gt => decide (w < v)
  | .ge => decide (w ≤ v)
  | .lt => decide (v < w)
  | .le => decide (v ≤ w)
  | .bitAnd => v &&& w != 0

/-- One arithmetic step of a byte access. -/
def arith (op : ArithOp) (v k : UInt32) : UInt32 :=
  match op with
  | .add => v + k
  | .sub => v - k
  | .mul => v * k
  | .div => v / k
  | .mod => v % k
  | .and => v &&& k
  | .or => v ||| k
  | .xor => v ^^^ k
  | .shl => v <<< k
  | .shr => v >>> k

/-- The steps of a byte access, in order. -/
def aluVal (steps : List (ArithOp × UInt32)) (v : UInt32) : UInt32 :=
  steps.foldl (fun v s => arith s.1 v s.2) v

section Values

variable (pkt : Vm.Packet)

def sizedVal (size : AccessSize) (off : UInt32) : Option UInt32 :=
  match size with
  | .byte => Vm.byte pkt off
  | .half => Vm.half pkt off
  | .word => Vm.word pkt off

/-- One load and one comparison in four directions. -/
def addrVal (val : Nat → Option UInt32) (k : UInt32) (src dst : Nat) : Dir → Tri
  | .src => equals (val src) k
  | .dst => equals (val dst) k
  | .srcAndDst => (equals (val src) k).and (equals (val dst) k)
  | .srcOrDst => (equals (val src) k).or (equals (val dst) k)

def bothVal (test : Nat → Tri) (src dst first second : Nat) : Dir → Tri
  | .src => test src
  | .dst => test dst
  | .srcAndDst => (test first).and (test second)
  | .srcOrDst => (test first).or (test second)

def halfAt (off : Nat) : Option UInt32 := Vm.half pkt (.ofNat off)

def wordAt (off : Nat) : Option UInt32 := Vm.word pkt (.ofNat off)

def segsVal (off : Nat) : Nat → List UInt16 → Tri
  | _, [] => some true
  | i, seg :: segs => (equals (halfAt pkt (off + i * 2)) seg.toUInt32).and (segsVal off (i + 1) segs)

/-- The mask of a segment of which only the first bits belong to the prefix. -/
def segMask (prefixLen i : Nat) : UInt32 :=
  ((0xffff : UInt32) <<< UInt32.ofNat (16 - (prefixLen - i * 16))) &&& 0xffff

def net6Val (prefixLen off : Nat) : Nat → List UInt16 → Tri
  | _, [] => some true
  | i, seg :: segs =>
    if prefixLen ≤ i * 16 then some true
    else (if i * 16 + 16 ≤ prefixLen then equals (halfAt pkt (off + i * 2)) seg.toUInt32
      else equals ((halfAt pkt (off + i * 2)).map (· &&& segMask prefixLen i))
        (seg.toUInt32 &&& segMask prefixLen i)).and (net6Val prefixLen off (i + 1) segs)

/-- The port at `off` behind the transport header X points to. -/
def portAt (x : UInt32) (off : Nat) : Option UInt32 := Vm.half pkt (x + .ofNat off)

def rangeVal (lo hi : UInt16) (x : UInt32) (off : Nat) : Tri :=
  (portAt pkt x off).map fun v => decide (lo.toUInt32 ≤ v) && decide (v ≤ hi.toUInt32)

def macVal (addr : MacAddr) (off : Nat) : Tri :=
  (equals (wordAt pkt off)
    (Vm.fromBe4 addr.octets[0]! addr.octets[1]! addr.octets[2]! addr.octets[3]!)).and
    (equals (halfAt pkt (off + 4)) (Vm.fromBe4 0 0 addr.octets[4]! addr.octets[5]!))

/-- The label is only looked at behind the second ethertype. -/
def mplsVal (label : Option UInt32) (off : Nat) : Tri :=
  (equals (halfAt pkt off) 0x8847).or ((equals (halfAt pkt off) 0x8848).and
    (match label with
    | none => some true
    | some lbl => equals ((wordAt pkt (off + 2)).map fun v : UInt32 => v >>> (12 : UInt32)) lbl))

/-- A field of a byte access; a transport header is behind the IPv4 header length. -/
def layerVal (net : Nat) (layer : Layer) (off : UInt32) (size : AccessSize) : Option UInt32 :=
  if layer = .trans then
    (Vm.byte pkt (.ofNat net)).bind fun b => sizedVal pkt size (4 * (b &&& 0xf) + .ofNat (net + off.toNat))
  else sizedVal pkt size (.ofNat (layerOffset net layer off))

def accessVal (ba : ByteAccess) (net : Nat) : Tri :=
  (layerVal pkt net ba.layer ba.offset.toUInt32 ba.size).bind fun v =>
    match ba.rhs with
    | .const k => some (cmpVal ba.op (aluVal ba.aluOps v) k)
    | .load rhs => (layerVal pkt net rhs.layer rhs.offset.toUInt32 rhs.size).map
        (cmpVal ba.op (aluVal ba.aluOps v))

/-- The outcome of a primitive's own code when X holds `x`. -/
def bodyVal (p : Primitive) (link : LinkType) (depth : Nat) (x : UInt32) : Tri :=
  let net := link.netOffset + depth * 4
  let ether := link.etherProtoOffset.map (· + depth * 4)
  match p with
  | .host (.v4 a) dir => addrVal (wordAt pkt) a (net + 12) (net + 16) dir
  | .host (.v6 a) dir => bothVal (fun off => segsVal pkt off 0 a.segments.toList) (net + 8)
      (net + 24) (net + 8) (net + 24) dir
  | .net n dir => addrVal (fun off => (wordAt pkt off).map (· &&& n.mask)) (n.addr &&& n.mask)
      (net + 12) (net + 16) dir
  | .net6 n dir => bothVal (fun off => net6Val pkt n.prefixLen.toNat off 0 n.addr.segments.toList)
      (net + 8) (net + 24) (net + 8) (net + 24) dir
  | .port port dir _ => addrVal (portAt pkt x) port.toUInt32 net (net + 2) dir
  | .portRange lo hi dir _ => bothVal (rangeVal pkt lo hi x) net (net + 2) net (net + 2) dir
  | .etherHost addr dir => bothVal (macVal pkt addr) 6 0 0 6 dir
  | .etherMulticast => (Vm.byte pkt 0).map (· &&& 0x01 != 0)
  | .ipBroadcast => equals (wordAt pkt (net + 16)) 0xffffffff
  | .ipMulticast => equals ((wordAt pkt (net + 16)).map (· &&& 0xf0000000)) 0xe0000000
  | .ip6Multicast => equals (Vm.byte pkt (.ofNat (net + 24))) 0xff
  | .vlan (some vid) => equals ((halfAt pkt (ether.getD 14 + 2)).map (· &&& 0x0fff)) vid.toUInt32
  | .mpls label => mplsVal pkt label (ether.getD 0)
  | .pppoeSession (some id) => equals (halfAt pkt (ether.getD 12 + 4)) id.toUInt32
  | .len op value => some (cmpVal op (Vm.pktLen pkt) value)
  | .byteAccess ba => accessVal pkt ba net
  | _ => some true

end Values

section Steps

variable {pkt : Vm.Packet} {x v : UInt32} {P S : Vm.Regs → Prop} {t : Tri} {c d : Code}

/-- X holds `x`. -/
def KeepsX (x : UInt32) (s : Vm.Regs) : Prop := s.x = x

/-- A holds `v` and X holds `x`. -/
def Loaded (x v : UInt32) (s : Vm.Regs) : Prop := s.x = x ∧ s.a = v

/-- The code runs from states of `P` to outcome `t` without a jump to success. -/
abbrev Runs (pkt : Vm.Packet) (x : UInt32) (c : Code) (P : Vm.Regs → Prop) (t : Tri)
    (S : Vm.Regs → Prop) : Prop :=
  Drops (Vm.machine pkt) (· = .packetLoad) c P t S (KeepsX x)

abbrev Ends (pkt : Vm.Packet) (x : UInt32) (c : Code) (P : Vm.Regs → Prop) (t : Tri) : Prop :=
  Meets (Vm.machine pkt) (· = .packetLoad) c P t (KeepsX x) (KeepsX x)

theorem Loaded.keeps {s : Vm.Regs} (h : Loaded x v s) : KeepsX x s := h.1

/-- One plain instruction of a run. -/
theorem run_does {i : Insn} {ef : Effect} (h : Does pkt i ef) (c : Code) (s : Vm.Regs) :
    (Vm.machine pkt).cells.run (.op i :: c) 0 s = match ef.apply s with
      | .ok s' => (Vm.machine pkt).cells.run c 0 s'
      | .error e => .stop e := by
  have ha : (Vm.machine pkt).cells.act (.op i) s = (ef.apply s).map Move.next := h.2 s
  cases he : ef.apply s with
  | ok s' =>
    rw [he] at ha
    exact Machine.run_next ha
  | error e =>
    rw [he] at ha
    exact Machine.run_stop ha

/-- Instructions that put `o` into A while X holds `x`, and change nothing else. -/
def Fetches (pkt : Vm.Packet) (x : UInt32) (is : List Insn) (o : Option UInt32) : Prop :=
  ∀ (s : Vm.Regs) (c : Code), s.x = x → (Vm.machine pkt).cells.run (ops is ++ c) 0 s =
    match o with
    | none => .stop .packetLoad
    | some v => (Vm.machine pkt).cells.run c 0 { s with a := v }

theorem Does.fetches {i : Insn} {o : Option UInt32} (h : Does pkt i (.load o)) :
    Fetches pkt x [i] o := by
  intro s c _
  rw [show ops [i] ++ c = .op i :: c from rfl, run_does h]
  cases o <;> rfl

theorem Does.fetches_ind {i : Insn} {f : UInt32 → Option UInt32} (h : Does pkt i (.loadInd f)) :
    Fetches pkt x [i] (f x) := by
  intro s c hs
  rw [show ops [i] ++ c = .op i :: c from rfl, run_does h, ← hs]
  cases hf : f s.x <;> simp only [Effect.apply, hf, Vm.orStop, Except.map]

/-- A load and an operation on what it has loaded. -/
theorem Fetches.alu {is : List Insn} {i : Insn} {o : Option UInt32} {f : UInt32 → UInt32}
    (h : Fetches pkt x is o) (hf : Does pkt i (.alu f)) : Fetches pkt x (is ++ [i]) (o.map f) := by
  intro s c hs
  have hcode : ops (is ++ [i]) ++ c = ops is ++ .op i :: c := by simp [ops]
  rw [hcode, h s _ hs]
  cases o with
  | none => rfl
  | some v => exact run_does hf c _

/-- A load and the code behind it. -/
theorem Fetches.runs {is : List Insn} {o : Option UInt32} {f : UInt32 → Tri}
    (h : Fetches pkt x is o) (hc : ∀ v, Runs pkt x c (Loaded x v) (f v) S) :
    Runs pkt x (ops is ++ c) (KeepsX x) (o.bind f) S := by
  intro s hs
  rw [h s c hs]
  cases o with
  | none => exact ⟨.packetLoad, rfl, rfl⟩
  | some v => exact hc v _ ⟨hs, rfl⟩

theorem Fetches.ends {is : List Insn} {o : Option UInt32} {f : UInt32 → Tri}
    (h : Fetches pkt x is o) (hc : ∀ v, Ends pkt x c (Loaded x v) (f v)) :
    Ends pkt x (ops is ++ c) (KeepsX x) (o.bind f) := by
  intro s hs
  rw [h s c hs]
  cases o with
  | none => exact ⟨.packetLoad, rfl, rfl⟩
  | some v => exact hc v _ ⟨hs, rfl⟩

/-- A branch that is taken if and only if `b`. -/
def Decides (pkt : Vm.Packet) (i : Insn) (P : Vm.Regs → Prop) (b : Bool) : Prop :=
  ∀ s, P s → Vm.act pkt i s = .ok (.jump (if b then .jt else .jf) s)

variable {i : Insn} {b : Bool}

/-- Failure if the branch is not taken. -/
theorem Decides.fails_else (h : Decides pkt i P b) (hj : i.jt = 0) (hs : ∀ s, P s → S s)
    (hf : ∀ s, P s → s.x = x) : Runs pkt x [.hole i .jf .failure] P (some b) S := by
  intro s hp
  have ha : (Vm.machine pkt).cells.act (.hole i .jf .failure) s = _ := h s hp
  cases b with
  | true =>
    have ht : (Vm.machine pkt).cells.tgt (.hole i .jf .failure) .jt = .skip 0 := by
      show Target.skip (i.off .jt) = _
      rw [Insn.off, hj]
      rfl
    exact ⟨s, hs s hp, (Machine.run_jump ha ht).trans (Machine.run_nil ..)⟩
  | false => exact ⟨s, hf s hp, Machine.run_exit ha rfl⟩

/-- Failure if the branch is taken. -/
theorem Decides.fails_then (h : Decides pkt i P b) (hj : i.jf = 0) (hs : ∀ s, P s → S s)
    (hf : ∀ s, P s → s.x = x) : Runs pkt x [.hole i .jt .failure] P (some !b) S := by
  intro s hp
  have ha : (Vm.machine pkt).cells.act (.hole i .jt .failure) s = _ := h s hp
  cases b with
  | false =>
    have ht : (Vm.machine pkt).cells.tgt (.hole i .jt .failure) .jf = .skip 0 := by
      show Target.skip (i.off .jf) = _
      rw [Insn.off, hj]
      rfl
    exact ⟨s, hs s hp, (Machine.run_jump ha ht).trans (Machine.run_nil ..)⟩
  | true => exact ⟨s, hf s hp, Machine.run_exit ha rfl⟩

/-- Success if the branch is taken, else what follows. -/
theorem Decides.succeeds (h : Decides pkt i P b) (hj : i.jf = 0) (hs : ∀ s, P s → s.x = x)
    (hc : Ends pkt x c P t) : Ends pkt x (.hole i .jt .success :: c) P (Tri.or (some b) t) := by
  intro s hp
  have ha : (Vm.machine pkt).cells.act (.hole i .jt .success) s = _ := h s hp
  cases b with
  | false =>
    have ht : (Vm.machine pkt).cells.tgt (.hole i .jt .success) .jf = .skip 0 := by
      show Target.skip (i.off .jf) = _
      rw [Insn.off, hj]
      rfl
    rw [Machine.run_jump ha ht]
    exact hc s hp
  | true => exact ⟨s, hs s hp, .inr (Machine.run_exit ha rfl)⟩

variable {k w : UInt32} {jt jf : UInt8}

theorem jeqK_decides : Decides pkt (.jeqK k jt jf) (Loaded x v) (v == k) := by
  rintro s ⟨-, rfl⟩
  simp +decide only [Vm.act, Insn.jeqK, Vm.taken, Vm.usesX, if_true, if_false]
  rfl

theorem jgtK_decides : Decides pkt (.jgtK k jt jf) (Loaded x v) (decide (k < v)) := by
  rintro s ⟨-, rfl⟩
  simp +decide only [Vm.act, Insn.jgtK, Vm.taken, Vm.usesX, if_true, if_false]
  rfl

theorem jgeK_decides : Decides pkt (.jgeK k jt jf) (Loaded x v) (decide (k ≤ v)) := by
  rintro s ⟨-, rfl⟩
  simp +decide only [Vm.act, Insn.jgeK, Vm.taken, Vm.usesX, if_true, if_false]
  rfl

theorem jsetK_decides : Decides pkt (.jsetK k jt jf) (Loaded x v) (v &&& k != 0) := by
  rintro s ⟨-, rfl⟩
  simp +decide only [Vm.act, Insn.jsetK, Vm.taken, Vm.usesX, if_true, if_false]
  rfl

theorem jeqX_decides : Decides pkt (.jeqX jt jf) (Loaded w v) (v == w) := by
  rintro s ⟨rfl, rfl⟩
  simp +decide only [Vm.act, Insn.jeqX, Vm.taken, Vm.usesX, if_true, if_false]
  rfl

theorem jgtX_decides : Decides pkt (.jgtX jt jf) (Loaded w v) (decide (w < v)) := by
  rintro s ⟨rfl, rfl⟩
  simp +decide only [Vm.act, Insn.jgtX, Vm.taken, Vm.usesX, if_true, if_false]
  rfl

theorem jgeX_decides : Decides pkt (.jgeX jt jf) (Loaded w v) (decide (w ≤ v)) := by
  rintro s ⟨rfl, rfl⟩
  simp +decide only [Vm.act, Insn.jgeX, Vm.taken, Vm.usesX, if_true, if_false]
  rfl

theorem jsetX_decides : Decides pkt (.jsetX jt jf) (Loaded w v) (v &&& w != 0) := by
  rintro s ⟨rfl, rfl⟩
  simp +decide only [Vm.act, Insn.jsetX, Vm.taken, Vm.usesX, if_true, if_false]
  rfl

theorem lt_eq_not (v w : UInt32) : decide (v < w) = !decide (w ≤ v) := by
  rw [← decide_not, decide_eq_decide]
  exact UInt32.not_le.symm

theorem le_eq_not (v w : UInt32) : decide (v ≤ w) = !decide (w < v) := by
  rw [← decide_not, decide_eq_decide]
  exact UInt32.not_lt.symm

/-- The comparison of A with a constant. -/
theorem cmp_runs (op : CmpOp) :
    Runs pkt x [cmpCell (cmpInsn op w)] (Loaded x v) (some (cmpVal op v w)) (Loaded x v) := by
  have keep : ∀ s, Loaded x v s → Loaded x v s := fun _ hs => hs
  have hx : ∀ s, Loaded x v s → s.x = x := fun _ hs => hs.1
  cases op with
  | eq => exact jeqK_decides.fails_else rfl keep hx
  | ne => exact jeqK_decides.fails_then rfl keep hx
  | gt => exact jgtK_decides.fails_else rfl keep hx
  | ge => exact jgeK_decides.fails_else rfl keep hx
  | lt =>
    rw [cmpVal, lt_eq_not]
    exact jgeK_decides.fails_then rfl keep hx
  | le =>
    rw [cmpVal, le_eq_not]
    exact jgtK_decides.fails_then rfl keep hx
  | bitAnd => exact jsetK_decides.fails_else rfl keep hx

/-- The comparison with the operands exchanged: the left one is in X. -/
theorem cmpX_runs (op : CmpOp) :
    Runs pkt w [cmpCell (cmpXInsn op)] (Loaded w v) (some (cmpVal op w v)) (Loaded w v) := by
  have keep : ∀ s, Loaded w v s → Loaded w v s := fun _ hs => hs
  have hx : ∀ s, Loaded w v s → s.x = w := fun _ hs => hs.1
  cases op with
  | eq =>
    rw [cmpVal, BEq.comm]
    exact jeqX_decides.fails_else rfl keep hx
  | ne =>
    rw [cmpVal, bne, BEq.comm]
    exact jeqX_decides.fails_then rfl keep hx
  | gt =>
    rw [cmpVal, lt_eq_not]
    exact jgeX_decides.fails_then rfl keep hx
  | ge =>
    rw [cmpVal, le_eq_not]
    exact jgtX_decides.fails_then rfl keep hx
  | lt => exact jgtX_decides.fails_else rfl keep hx
  | le => exact jgeX_decides.fails_else rfl keep hx
  | bitAnd =>
    rw [cmpVal, UInt32.and_comm]
    exact jsetX_decides.fails_else rfl keep hx

end Steps

section Bodies

variable {pkt : Vm.Packet} {x : UInt32}

theorem does_ldw (pkt : Vm.Packet) (k : UInt32) : Does pkt (.ldwAbs k) (.load (Vm.word pkt k)) := by
  have h : Does pkt (.ldwAbs k) _ := does_abs (by simp +decide only [Insn.ldwAbs])
    (by simp +decide only [Insn.ldwAbs])
  simpa +decide only [Vm.sizedLoad, Insn.ldwAbs, if_true] using h

theorem does_ldhInd (pkt : Vm.Packet) (k : UInt32) :
    Does pkt (.ldhInd k) (.loadInd fun x => Vm.half pkt (x + k)) := by
  have h : Does pkt (.ldhInd k) _ := does_ind (by simp +decide only [Insn.ldhInd])
    (by simp +decide only [Insn.ldhInd])
  simpa +decide only [Vm.sizedLoad, Insn.ldhInd, if_true, if_false] using h

theorem does_andK (pkt : Vm.Packet) (k : UInt32) : Does pkt (.andK k) (.alu (· &&& k)) :=
  does_alu (by simp +decide only [Insn.andK]) (by simp +decide only [Insn.andK])
    (fun a => by simp +decide only [Insn.andK, Vm.alu, if_true, if_false])

theorem Runs.forget {c : Code} {P : Vm.Regs → Prop} {t : Tri} {v : UInt32}
    (h : Runs pkt x c P t (Loaded x v)) : Runs pkt x c P t (KeepsX x) :=
  h.weaken (fun _ hp => hp) (fun _ hs => hs.1) fun _ hf => hf

theorem Runs.ends {c : Code} {P : Vm.Regs → Prop} {t : Tri} (h : Runs pkt x c P t (KeepsX x)) :
    Ends pkt x c P t := h.meets

theorem Runs.pre {c : Code} {P Q S : Vm.Regs → Prop} {t : Tri} (h : Runs pkt x c P t S)
    (hp : ∀ s, Q s → P s) : Runs pkt x c Q t S :=
  h.weaken hp (fun _ hs => hs) fun _ hf => hf

theorem jeqFail_runs (k v : UInt32) :
    Runs pkt x [jeqFail k] (Loaded x v) (some (v == k)) (Loaded x v) := cmp_runs .eq

theorem nil_runs : Runs pkt x [] (KeepsX x) (some true) (KeepsX x) := Drops.nil fun _ hs => hs

theorem equals_eq_bind (o : Option UInt32) (k : UInt32) :
    equals o k = o.bind fun v => some (v == k) := by
  cases o <;> rfl

/-- A load and a comparison for equality. -/
theorem Fetches.equals {is : List Insn} {o : Option UInt32} (h : Fetches pkt x is o) (k : UInt32) :
    Runs pkt x (ops is ++ [jeqFail k]) (KeepsX x) (equals o k) (KeepsX x) := by
  rw [equals_eq_bind]
  exact h.runs fun v => (jeqFail_runs k v).forget

/-- An address test over a load. -/
theorem addr_ends {load : Nat → List Insn} {val : Nat → Option UInt32}
    (h : ∀ off, Fetches pkt x (load off) (val off)) (k : UInt32) (src dst : Nat) (dir : Dir) :
    Ends pkt x (addrCode load k src dst dir) (KeepsX x) (addrVal val k src dst dir) := by
  cases dir with
  | src => exact ((h src).equals k).ends
  | dst => exact ((h dst).equals k).ends
  | srcAndDst => exact ((h src).equals k).append fun _ => ((h dst).equals k).ends
  | srcOrDst =>
    have hv : addrVal val k src dst .srcOrDst =
        (val src).bind fun v => Tri.or (some (v == k)) (equals (val dst) k) := by
      unfold addrVal Classic.equals
      cases val src <;> rfl
    rw [hv, addrCode, List.append_assoc, List.singleton_append]
    exact (h src).ends fun v => jeqK_decides.succeeds rfl (fun _ hs => hs.1)
      (((h dst).equals k).pre fun _ hs => hs.1).ends

/-- A test in both directions. -/
theorem both_ends {code : Nat → Code} {val : Nat → Tri}
    (h : ∀ off, Runs pkt x (code off) (KeepsX x) (val off) (KeepsX x))
    (src dst first second : Nat) (dir : Dir) :
    Ends pkt x (bothCode code src dst first second dir) (KeepsX x)
      (bothVal val src dst first second dir) := by
  cases dir with
  | src => exact (h src).ends
  | dst => exact (h dst).ends
  | srcAndDst => exact (h first).append fun _ => (h second).ends
  | srcOrDst =>
    exact Meets.alt (fun _ _ _ => by simp [Vm.machine]) (vm_jumps pkt) (h first).ends
      fun _ => (h second).ends

theorem segs_runs (off i : Nat) (segs : List UInt16) :
    Runs pkt x (segsCode off i segs) (KeepsX x) (segsVal pkt off i segs) (KeepsX x) := by
  induction segs generalizing i with
  | nil => exact nil_runs
  | cons seg segs ih =>
    exact ((does_ldh pkt _).fetches.equals _).append_drops fun _ => ih (i + 1)

theorem net6_runs (prefixLen off i : Nat) (segs : List UInt16) :
    Runs pkt x (net6Code prefixLen off i segs) (KeepsX x) (net6Val pkt prefixLen off i segs)
      (KeepsX x) := by
  induction segs generalizing i with
  | nil => exact nil_runs
  | cons seg segs ih =>
    unfold net6Code net6Val
    by_cases hi : prefixLen ≤ i * 16
    · rw [if_pos hi, if_pos hi]
      exact nil_runs
    · rw [if_neg hi, if_neg hi]
      refine Drops.append_drops (Q := KeepsX x) ?_ fun _ => ih (i + 1)
      split
      · exact (does_ldh pkt _).fetches.equals _
      · exact ((does_ldh pkt _).fetches.alu (does_andK pkt _)).equals _

theorem range_runs (lo hi : UInt16) (off : Nat) :
    Runs pkt x (rangeCode lo hi off) (KeepsX x) (rangeVal pkt lo hi x off) (KeepsX x) := by
  have hv : rangeVal pkt lo hi x off = (portAt pkt x off).bind fun v =>
      Tri.and (some (decide (lo.toUInt32 ≤ v))) (some (!decide (hi.toUInt32 < v))) := by
    unfold rangeVal
    cases portAt pkt x off with
    | none => rfl
    | some v => simp only [Option.map_some, Option.bind_some, Tri.and_some, le_eq_not v]
  rw [hv]
  refine (does_ldhInd pkt _).fetches_ind.runs fun v => ?_
  exact (jgeK_decides.fails_else rfl (fun _ hs => hs) fun _ hs => hs.1).append_drops fun _ =>
    jgtK_decides.fails_then rfl (fun _ hs => hs.1) fun _ hs => hs.1

theorem mac_runs (addr : MacAddr) (off : Nat) :
    Runs pkt x (macCode addr off) (KeepsX x) (macVal pkt addr off) (KeepsX x) :=
  ((does_ldw pkt _).fetches.equals _).append_drops fun _ => (does_ldh pkt _).fetches.equals _

theorem does_rshK (pkt : Vm.Packet) (k : UInt32) : Does pkt (.rshK k) (.alu (· >>> (k &&& 31))) :=
  does_alu (by simp +decide only [Insn.rshK]) (by simp +decide only [Insn.rshK])
    (fun a => by simp +decide only [Insn.rshK, Vm.alu, if_true, if_false])

theorem mpls_ends (label : Option UInt32) (off : Nat) :
    Ends pkt x (mplsCode label off) (KeepsX x) (mplsVal pkt label off) := by
  have hv : mplsVal pkt label off = (halfAt pkt off).bind fun v =>
      Tri.or (some (v == 0x8847)) (Tri.and (some (v == 0x8848)) (match label with
        | none => some true
        | some lbl => equals ((wordAt pkt (off + 2)).map fun v : UInt32 => v >>> (12 : UInt32)) lbl)) := by
    unfold mplsVal equals
    cases halfAt pkt off <;> rfl
  rw [hv]
  refine (does_ldh pkt _).fetches.ends fun v => ?_
  refine jeqK_decides.succeeds rfl (fun _ hs => hs.1) ?_
  refine Drops.append (Q := KeepsX x) (jeqFail_runs _ v).forget fun _ => ?_
  cases label with
  | none => exact nil_runs.ends
  | some lbl => exact (((does_ldw pkt _).fetches.alu (does_rshK pkt 12)).equals lbl).ends

end Bodies

section Access

variable {pkt : Vm.Packet} {s : Vm.Regs} {c : Code}

theorem and_31 (k : UInt32) : k &&& 31 = k % 32 := by
  apply UInt32.toNat_inj.mp
  rw [UInt32.toNat_and, UInt32.toNat_mod]
  exact Nat.and_two_pow_sub_one_eq_mod _ 5

/-- Every step of a byte access that has an instruction is done by it. -/
theorem aluInsn_does {op : ArithOp} {k : UInt32} {i : Insn} (h : aluInsn op k = .ok i) :
    Does pkt i (.alu (arith op · k)) := by
  cases op with
  | add =>
    cases h
    exact does_alu (by simp +decide only [Insn.addK]) (by simp +decide only [Insn.addK])
      (fun a => by simp +decide only [Insn.addK, Vm.alu, if_true, arith])
  | sub =>
    cases h
    exact does_alu (by simp +decide only [Insn.subK]) (by simp +decide only [Insn.subK])
      (fun a => by simp +decide only [Insn.subK, Vm.alu, if_true, if_false, arith])
  | mul =>
    cases h
    exact does_alu (by simp +decide only [Insn.mulK]) (by simp +decide only [Insn.mulK])
      (fun a => by simp +decide only [Insn.mulK, Vm.alu, if_true, if_false, arith])
  | div =>
    simp only [aluInsn] at h
    split at h
    · cases h
    · rename_i hk
      cases h
      exact does_alu (by simp +decide only [Insn.divK]) (by simp +decide only [Insn.divK])
        (fun a => by simp +decide only [Insn.divK, Vm.alu, if_true, if_false, arith, hk])
  | mod => cases h
  | and =>
    cases h
    exact does_andK pkt k
  | or =>
    cases h
    exact does_alu (by simp +decide only [Insn.orK]) (by simp +decide only [Insn.orK])
      (fun a => by simp +decide only [Insn.orK, Vm.alu, if_true, if_false, arith])
  | xor =>
    cases h
    exact does_alu (by simp +decide only [Insn.xorK]) (by simp +decide only [Insn.xorK])
      (fun a => by simp +decide only [Insn.xorK, Vm.alu, if_true, if_false, arith])
  | shl =>
    cases h
    refine does_alu (by simp +decide only [Insn.lshK]) (by simp +decide only [Insn.lshK])
      (fun a => ?_)
    simp +decide only [Insn.lshK, Vm.alu, if_true, if_false, arith, and_31]
    rw [← UInt32.shiftLeft_eq_shiftLeft_mod]
  | shr =>
    cases h
    refine does_alu (by simp +decide only [Insn.rshK]) (by simp +decide only [Insn.rshK])
      (fun a => ?_)
    simp +decide only [Insn.rshK, Vm.alu, if_true, if_false, arith, and_31]
    rw [← UInt32.shiftRight_eq_shiftRight_mod]

/-- The arithmetic of a byte access runs through. -/
theorem alu_run {steps : List (ArithOp × UInt32)}
    (h : ∀ st ∈ steps, (aluInsn st.1 st.2).toOption.isSome = true) (c : Code) (s : Vm.Regs) :
    (Vm.machine pkt).cells.run (ops (aluCode steps) ++ c) 0 s =
      (Vm.machine pkt).cells.run c 0 { s with a := aluVal steps s.a } := by
  induction steps generalizing s with
  | nil => rfl
  | cons st steps ih =>
    obtain ⟨op, k⟩ := st
    cases hi : aluInsn op k with
    | error e =>
      have hs := h (op, k) List.mem_cons_self
      simp only [hi, Except.toOption] at hs
      cases hs
    | ok i =>
      have hcode : ops (aluCode ((op, k) :: steps)) ++ c = .op i :: (ops (aluCode steps) ++ c) := by
        simp [aluCode, hi, Except.toOption, ops]
      rw [hcode, run_does (aluInsn_does hi)]
      exact ih (fun t ht => h t (List.mem_cons_of_mem _ ht)) _

theorem sizedInsn_abs (off : Nat) (size : AccessSize) :
    Does pkt (sizedInsn off size false) (.load (sizedVal pkt size (.ofNat off))) := by
  cases size with
  | byte => exact does_ldb pkt _
  | half => exact does_ldh pkt _
  | word => exact does_ldw pkt _

theorem sizedInsn_ind (off : Nat) (size : AccessSize) :
    Does pkt (sizedInsn off size true) (.loadInd fun x => sizedVal pkt size (x + .ofNat off)) := by
  cases size with
  | byte =>
    have h : Does pkt (.ldbInd (.ofNat off)) _ := does_ind (by simp +decide only [Insn.ldbInd])
      (by simp +decide only [Insn.ldbInd])
    simp +decide only [Vm.sizedLoad, Insn.ldbInd, if_true, if_false] at h
    exact h
  | half => exact does_ldhInd pkt _
  | word =>
    have h : Does pkt (.ldwInd (.ofNat off)) _ := does_ind (by simp +decide only [Insn.ldwInd])
      (by simp +decide only [Insn.ldwInd])
    simp +decide only [Vm.sizedLoad, Insn.ldwInd, if_true, if_false] at h
    exact h

/-- The IPv4 header length, as `ldxMsh` leaves it in X. -/
def headerLength (pkt : Vm.Packet) (net : Nat) : Option UInt32 :=
  (Vm.byte pkt (.ofNat net)).map fun b => 4 * (b &&& 0xf)

/-- One side of a byte access. X may be left out where it holds the header length already. -/
theorem loadSide_run (layer : Layer) (off : UInt32) (size : AccessSize) (net : Nat) (msh : Bool)
    (hx : layer = .trans → msh = false → headerLength pkt net = some s.x) (c : Code) :
    match layerVal pkt net layer off size with
    | none => (Vm.machine pkt).cells.run (ops (loadSide layer off size net msh) ++ c) 0 s =
        .stop .packetLoad
    | some v => ∃ x, (layer = .trans → headerLength pkt net = some x) ∧ (layer ≠ .trans → x = s.x) ∧
        (Vm.machine pkt).cells.run (ops (loadSide layer off size net msh) ++ c) 0 s =
          (Vm.machine pkt).cells.run c 0 { s with a := v, x := x } := by
  by_cases hl : layer = .trans
  · subst hl
    have hm : Does pkt (.ldxMsh (.ofNat net)) (.loadX (headerLength pkt net)) := does_msh rfl
    have hi := @sizedInsn_ind pkt (net + off.toNat) size
    have hv : layerVal pkt net .trans off size = (headerLength pkt net).bind fun x =>
        sizedVal pkt size (x + .ofNat (net + off.toNat)) := by
      rw [layerVal, if_pos rfl, headerLength, Option.bind_map]
      rfl
    rw [hv]
    -- Behind `ldxMsh`, or without it: X holds the header length.
    have hrest : ∀ x, headerLength pkt net = some x → ∀ s : Vm.Regs, s.x = x →
        (Vm.machine pkt).cells.run (.op (sizedInsn (net + off.toNat) size true) :: c) 0 s =
          match sizedVal pkt size (x + .ofNat (net + off.toNat)) with
          | none => .stop .packetLoad
          | some v => (Vm.machine pkt).cells.run c 0 { s with a := v } := by
      rintro x - s rfl
      rw [run_does hi]
      cases hs : sizedVal pkt size (s.x + .ofNat (net + off.toNat)) <;>
        simp only [Effect.apply, hs, Vm.orStop, Except.map]
    cases hh : headerLength pkt net with
    | none =>
      cases msh with
      | false =>
        rw [hx rfl rfl] at hh
        cases hh
      | true =>
        show (Vm.machine pkt).cells.run (.op (.ldxMsh (.ofNat net)) :: _) 0 s = _
        rw [run_does hm, hh]
        rfl
    | some x =>
      have hr : (Vm.machine pkt).cells.run (ops (loadSide .trans off size net msh) ++ c) 0 s =
          (Vm.machine pkt).cells.run (.op (sizedInsn (net + off.toNat) size true) :: c) 0
            { s with x := x } := by
        cases msh with
        | false =>
          have hs : s.x = x := Option.some.inj ((hx rfl rfl).symm.trans hh)
          subst hs
          rfl
        | true =>
          show (Vm.machine pkt).cells.run (.op (.ldxMsh (.ofNat net)) :: _) 0 s = _
          rw [run_does hm, hh]
          rfl
      rw [hr, hrest x hh _ rfl]
      simp only [Option.bind_some]
      cases sizedVal pkt size (x + .ofNat (net + off.toNat)) with
      | none => rfl
      | some v => exact ⟨x, fun _ => rfl, fun h => absurd rfl h, rfl⟩
  · have hi := @sizedInsn_abs pkt (layerOffset net layer off) size
    have hcode : ops (loadSide layer off size net msh) ++ c =
        .op (sizedInsn (layerOffset net layer off) size false) :: c := by
      rw [loadSide, if_neg hl]
      rfl
    rw [hcode, run_does hi, layerVal, if_neg hl]
    cases sizedVal pkt size (.ofNat (layerOffset net layer off)) with
    | none => rfl
    | some v => exact ⟨s.x, fun h => absurd h hl, fun _ => rfl, rfl⟩

theorem constCode_eq (ba : ByteAccess) (value : UInt32) (net : Nat) :
    constCode ba value net = ops (loadSide ba.layer ba.offset.toUInt32 ba.size net true) ++
      (ops (aluCode ba.aluOps) ++ [cmpCell (cmpInsn ba.op value)]) := by
  rw [constCode, ops, List.map_append, List.append_assoc]
  congr 1
  unfold loadSide layerOffset
  cases ba.layer <;> rfl

/-- Both routes of an access with two loads, by the plain instructions between them. -/
theorem loadCode_eq (ba : ByteAccess) (rhs : ByteLoad) (net : Nat) :
    loadCode ba rhs net =
      if ba.layer = .trans ∨ rhs.layer = .trans then
        ops (loadSide ba.layer ba.offset.toUInt32 ba.size net true) ++ (ops (aluCode ba.aluOps) ++
          .op (.st 0) :: (ops (loadSide rhs.layer rhs.offset.toUInt32 rhs.size net
            (ba.layer != .trans)) ++ [.op (.ldxMem 0), cmpCell (cmpXInsn ba.op)]))
      else
        ops (loadSide ba.layer ba.offset.toUInt32 ba.size net true) ++ (ops (aluCode ba.aluOps) ++
          .op .tax :: (ops (loadSide rhs.layer rhs.offset.toUInt32 rhs.size net true) ++
            [cmpCell (cmpXInsn ba.op)])) := by
  unfold loadCode
  by_cases h : ba.layer = .trans ∨ rhs.layer = .trans
  · rw [if_pos h, if_pos (by simpa using h)]
    simp [ops]
  · rw [if_neg h, if_neg (by simpa using h)]
    obtain ⟨hl, hr⟩ := not_or.mp h
    simp [ops, loadSide, hl, hr]

section Routes

variable {ba : ByteAccess} (net : Nat)
  (h : ∀ st ∈ ba.aluOps, (aluInsn st.1 st.2).toOption.isSome = true)
include h

/-- The left side of a comparison, with its arithmetic. -/
theorem left_run (c : Code) (s : Vm.Regs) :
    match layerVal pkt net ba.layer ba.offset.toUInt32 ba.size with
    | none => (Vm.machine pkt).cells.run (ops (loadSide ba.layer ba.offset.toUInt32 ba.size net true)
        ++ (ops (aluCode ba.aluOps) ++ c)) 0 s = .stop .packetLoad
    | some v => ∃ x, (ba.layer = .trans → headerLength pkt net = some x) ∧
        (Vm.machine pkt).cells.run (ops (loadSide ba.layer ba.offset.toUInt32 ba.size net true)
          ++ (ops (aluCode ba.aluOps) ++ c)) 0 s =
          (Vm.machine pkt).cells.run c 0 { s with a := aluVal ba.aluOps v, x := x } := by
  have hside := @loadSide_run pkt s ba.layer ba.offset.toUInt32 ba.size net true (by simp)
    (ops (aluCode ba.aluOps) ++ c)
  cases hv : layerVal pkt net ba.layer ba.offset.toUInt32 ba.size with
  | none =>
    rw [hv] at hside
    exact hside
  | some v =>
    rw [hv] at hside
    obtain ⟨x, hx, -, hrun⟩ := hside
    exact ⟨x, hx, hrun.trans (alu_run h c _)⟩

/-- The comparison with a constant. -/
theorem const_ends (value : UInt32) (s : Vm.Regs) :
    ((Vm.machine pkt).cells.run (constCode ba value net) 0 s).Fits (· = .packetLoad) (fun _ => True)
      (fun _ => True) ((layerVal pkt net ba.layer ba.offset.toUInt32 ba.size).bind fun v =>
        some (cmpVal ba.op (aluVal ba.aluOps v) value)) := by
  rw [constCode_eq]
  have hleft := @left_run pkt ba net h [cmpCell (cmpInsn ba.op value)] s
  cases hv : layerVal pkt net ba.layer ba.offset.toUInt32 ba.size with
  | none =>
    rw [hv] at hleft
    exact ⟨_, rfl, hleft⟩
  | some v =>
    rw [hv] at hleft
    obtain ⟨x, -, hrun⟩ := hleft
    rw [hrun]
    have hc := @cmp_runs pkt x (aluVal ba.aluOps v) value ba.op
      { s with a := aluVal ba.aluOps v, x := x } ⟨rfl, rfl⟩
    exact hc.fits.mono (fun _ _ => trivial) fun _ _ => trivial

omit h in
theorem cmpX_ends (op : CmpOp) {w r : UInt32} {s : Vm.Regs} (hw : s.x = w) (hr : s.a = r) :
    ((Vm.machine pkt).cells.run [cmpCell (cmpXInsn op)] 0 s).Fits (· = .packetLoad)
      (fun _ => True) (fun _ => True) (some (cmpVal op w r)) :=
  (cmpX_runs op s ⟨hw, hr⟩).fits.mono (fun _ _ => trivial) fun _ _ => trivial

/-- The comparison of two fields, by either route. -/
theorem load_ends (rhs : ByteLoad) (s : Vm.Regs) :
    ((Vm.machine pkt).cells.run (loadCode ba rhs net) 0 s).Fits (· = .packetLoad) (fun _ => True)
      (fun _ => True) ((layerVal pkt net ba.layer ba.offset.toUInt32 ba.size).bind fun v =>
        (layerVal pkt net rhs.layer rhs.offset.toUInt32 rhs.size).map
          (cmpVal ba.op (aluVal ba.aluOps v))) := by
  rw [loadCode_eq]
  by_cases htr : ba.layer = .trans ∨ rhs.layer = .trans
  · rw [if_pos htr]
    have hst : Does pkt (.st 0) .store := does_store rfl rfl
    have hmem : Does pkt (.ldxMem 0) .reload := does_reload rfl rfl
    have hleft := @left_run pkt ba net h (.op (.st 0) :: (ops (loadSide rhs.layer
      rhs.offset.toUInt32 rhs.size net (ba.layer != .trans)) ++
      [.op (.ldxMem 0), cmpCell (cmpXInsn ba.op)])) s
    cases hv : layerVal pkt net ba.layer ba.offset.toUInt32 ba.size with
    | none =>
      rw [hv] at hleft
      exact ⟨_, rfl, hleft⟩
    | some v =>
      rw [hv] at hleft
      obtain ⟨x, hx, hrun⟩ := hleft
      -- X is not read again on the right where the left has put the header length there.
      have hright := @loadSide_run pkt { s with
          a := aluVal ba.aluOps v, x := x, scratch := s.scratch.set 0 (aluVal ba.aluOps v) }
        rhs.layer rhs.offset.toUInt32 rhs.size net (ba.layer != .trans)
        (fun _ hm => hx (by simpa using hm)) [.op (.ldxMem 0), cmpCell (cmpXInsn ba.op)]
      rw [hrun, run_does hst]
      cases hw : layerVal pkt net rhs.layer rhs.offset.toUInt32 rhs.size with
      | none =>
        rw [hw] at hright
        exact ⟨_, rfl, hright⟩
      | some w =>
        rw [hw] at hright
        obtain ⟨x', -, -, hrun'⟩ := hright
        rw [show (Effect.store.apply _ : Except Vm.Stop Vm.Regs) = .ok _ from rfl]
        simp only
        rw [hrun', run_does hmem]
        exact cmpX_ends _ (by simp) rfl
  · rw [if_neg htr]
    obtain ⟨-, hr⟩ := not_or.mp htr
    have htax : Does pkt .tax .copy := does_copy rfl
    have hleft := @left_run pkt ba net h (.op .tax :: (ops (loadSide rhs.layer
      rhs.offset.toUInt32 rhs.size net true) ++ [cmpCell (cmpXInsn ba.op)])) s
    cases hv : layerVal pkt net ba.layer ba.offset.toUInt32 ba.size with
    | none =>
      rw [hv] at hleft
      exact ⟨_, rfl, hleft⟩
    | some v =>
      rw [hv] at hleft
      obtain ⟨x, -, hrun⟩ := hleft
      have hright := @loadSide_run pkt { s with
          a := aluVal ba.aluOps v, x := aluVal ba.aluOps v }
        rhs.layer rhs.offset.toUInt32 rhs.size net true (by simp) [cmpCell (cmpXInsn ba.op)]
      rw [hrun, run_does htax]
      cases hw : layerVal pkt net rhs.layer rhs.offset.toUInt32 rhs.size with
      | none =>
        rw [hw] at hright
        exact ⟨_, rfl, hright⟩
      | some w =>
        rw [hw] at hright
        obtain ⟨x', -, hx', hrun'⟩ := hright
        rw [show (Effect.copy.apply _ : Except Vm.Stop Vm.Regs) = .ok _ from rfl]
        simp only
        rw [hrun']
        exact cmpX_ends _ (hx' hr) rfl

end Routes

end Access

section Body

variable {pkt : Vm.Packet} {p : Primitive} {link : LinkType} {d : Nat} {x : UInt32}

theorem aluOps_ok {ba : ByteAccess} (h : bodyOk (.byteAccess ba) link = true) :
    ∀ st ∈ ba.aluOps, (aluInsn st.1 st.2).toOption.isSome = true := by
  change (_ && _) = true at h
  rw [Bool.and_eq_true, List.all_eq_true] at h
  exact h.1

theorem does_len_insn : Does pkt .ldLen (.load (some (Vm.pktLen pkt))) := does_len rfl

/-- The code of a primitive behind its guard leaves with the primitive's own value. -/
theorem body_ends (h : bodyOk p link = true) :
    Meets (Vm.machine pkt) (· = .packetLoad) (body p link d) (KeepsX x) (bodyVal pkt p link d x)
      (fun _ => True) (fun _ => True) := by
  have ends : ∀ {c : Code} {t : Tri}, Ends pkt x c (KeepsX x) t →
      Meets (Vm.machine pkt) (· = .packetLoad) c (KeepsX x) t (fun _ => True) (fun _ => True) :=
    fun he => he.weaken (fun _ hs => hs) (fun _ _ => trivial) fun _ _ => trivial
  cases p with
  | host a dir =>
    cases a with
    | v4 a => exact ends (addr_ends (fun off => (does_ldw pkt _).fetches) _ _ _ dir)
    | v6 a => exact ends (both_ends (fun off => segs_runs off 0 _) _ _ _ _ dir)
  | net n dir =>
    exact ends (addr_ends (fun off => (does_ldw pkt _).fetches.alu (does_andK pkt _)) _ _ _ dir)
  | net6 n dir => exact ends (both_ends (fun off => net6_runs _ off 0 _) _ _ _ _ dir)
  | port port dir proto => exact ends (addr_ends (fun off => (does_ldhInd pkt _).fetches_ind) _ _ _ dir)
  | portRange lo hi dir proto => exact ends (both_ends (fun off => range_runs lo hi off) _ _ _ _ dir)
  | etherHost addr dir => exact ends (both_ends (fun off => mac_runs addr off) _ _ _ _ dir)
  | etherMulticast =>
    have hv : bodyVal pkt .etherMulticast link d x =
        (Vm.byte pkt 0).bind fun v => some (v &&& 0x01 != 0) := by
      show (Vm.byte pkt 0).map _ = _
      cases Vm.byte pkt 0 <;> rfl
    rw [hv]
    exact ends ((does_ldb pkt 0).fetches.ends fun v => (cmp_runs .bitAnd).forget.ends)
  | ipBroadcast => exact ends ((does_ldw pkt _).fetches.equals _).ends
  | ipMulticast => exact ends (((does_ldw pkt _).fetches.alu (does_andK pkt _)).equals _).ends
  | ip6Multicast => exact ends ((does_ldb pkt _).fetches.equals _).ends
  | vlan id =>
    cases id with
    | none => exact ends nil_runs.ends
    | some vid => exact ends (((does_ldh pkt _).fetches.alu (does_andK pkt _)).equals _).ends
  | mpls label => exact ends (mpls_ends label _)
  | pppoeSession id =>
    cases id with
    | none => exact ends nil_runs.ends
    | some id => exact ends ((does_ldh pkt _).fetches.equals _).ends
  | len op value =>
    exact ends (does_len_insn.fetches.ends fun v => (cmp_runs op (w := value)).forget.ends)
  | byteAccess ba =>
    intro s _
    cases hr : ba.rhs with
    | const value =>
      have he := @const_ends pkt ba (link.netOffset + d * 4) (aluOps_ok h) value s
      simp only [body, bodyVal, accessVal, hr]
      exact he
    | load rhs =>
      have he := @load_ends pkt ba (link.netOffset + d * 4) (aluOps_ok h) rhs s
      simp only [body, bodyVal, accessVal, hr]
      exact he
  | proto | etherProto | pppoeDiscovery | ipProtoChain | ip6ProtoChain | inbound | outbound =>
    exact ends nil_runs.ends

theorem tri_of_fits {r : Result Vm.Stop Vm.Regs Bool} {S F : Vm.Regs → Prop} {t : Tri}
    (h : r.Fits (· = .packetLoad) S F t) : Result.tri r = t := by
  rcases t with _ | _ | _
  · obtain ⟨e, rfl, rfl⟩ := h
    rfl
  · obtain ⟨s, -, rfl⟩ := h
    rfl
  · obtain ⟨s, -, rfl | rfl⟩ := h <;> rfl

theorem outcome_body (h : bodyOk p link = true) :
    outcome pkt (body p link d) x = bodyVal pkt p link d x :=
  tri_of_fits (body_ends h { Vm.Regs.start with x := x } rfl)

/-- When a primitive's own program accepts: its guard holds, and then its own value does. -/
theorem leaf_accepts {insns : List Insn} (h : compile (.primitive p) link = .ok insns) :
    Vm.run insns pkt = true ↔ guardVal pkt link 0 (guardOf p) = some true ∧
      bodyVal pkt p link 0 (portsX pkt link 0) = some true := by
  have hok : primOk p link = true := (compileWith_ok.mp h).1.1.leaves p List.mem_cons_self
  have hbody : bodyOk p link = true := by
    simp only [primOk, Bool.and_eq_true] at hok
    exact hok.2
  have he : Vm.exec insns pkt = _ := leaf_exec h
  rw [leafVal, outcome_body hbody] at he
  rw [← Tri.and_eq_true]
  unfold Vm.run Vm.inner
  rw [he]
  rcases (guardVal pkt link 0 (guardOf p)).and (bodyVal pkt p link 0 (portsX pkt link 0)) with
    _ | _ | _ <;> simp [ending]

end Body

end PktBaffle.Proofs.Classic
