import PktBaffle.Pkttap.LinuxRing

namespace PktBaffle.Pkttap.LinuxRing

section Memory

variable {m : Memory} {start len : Nat} {bytes : List UInt8}

@[simp] theorem slice_length : (m.slice start len).length = len := by
  simp [Memory.slice]

theorem slice_congr {m' : Memory} (h : ∀ i, i < len → m (start + i) = m' (start + i)) :
    m.slice start len = m'.slice start len := by
  apply List.map_congr_left
  intro i hi
  exact h i (List.mem_range.mp hi)

theorem slice_take (map : Memory) (start a b : Nat) :
    (map.slice start a).take b = map.slice start (min a b) := by
  unfold Memory.slice
  rw [← List.map_take, List.take_range, Nat.min_comm]

theorem slice_drop_take (map : Memory) {start n d k : Nat} (h : d + k ≤ n) :
    ((map.slice start n).drop d).take k = map.slice (start + d) k := by
  apply List.ext_getElem
  · simp only [List.length_take, List.length_drop, slice_length]
    omega
  · intro i h₁ h₂
    simp [Memory.slice, Nat.add_assoc]

/-- A write leaves the bytes outside its range alone. -/
theorem write_frame {i : Nat} (h : i < start ∨ start + bytes.length ≤ i) :
    m.write start bytes i = m i := by
  unfold Memory.write
  by_cases hs : start ≤ i
  · rw [if_pos hs, List.getElem?_eq_none (by omega)]
    rfl
  · rw [if_neg hs]

theorem slice_write : (m.write start bytes).slice start bytes.length = bytes := by
  apply List.ext_getElem
  · exact slice_length
  · intro i h₁ h₂
    simp only [Memory.slice, List.getElem_map, List.getElem_range, Memory.write]
    rw [if_pos (by omega), Nat.add_sub_cancel_left, List.getElem?_eq_getElem h₂]
    rfl

end Memory

section Fields

variable {host : Host} {block : List UInt8} {offset snaplen : Nat}

/-- A frame that is returned lies in its block and is cut to the snaplen. -/
theorem parseFrame_bounds {m : FrameMeta} {next : Option Nat}
    (h : parseFrame host block offset snaplen = some (m, next)) :
    m.offset + m.len ≤ block.length ∧ m.len ≤ snaplen := by
  unfold parseFrame at h
  simp only [Option.bind_eq_bind, Option.bind_eq_some_iff] at h
  obtain ⟨hdrEnd, -, h⟩ := h
  by_cases h₁ : block.length < hdrEnd
  · simp [h₁] at h
  simp only [h₁, if_false, Option.pure_def, Option.bind_some, Option.bind_eq_some_iff] at h
  obtain ⟨dataStart, hstart, dataEnd, hend, h⟩ := h
  by_cases h₂ : block.length < dataEnd
  · simp [h₂] at h
  simp only [h₂, if_false] at h
  obtain ⟨rfl, -⟩ := Usize.checkedAdd_eq_some.mp hend
  have hm : m.offset = dataStart ∧
      m.len = min (readTpacket3Hdr host block offset).tpSnaplen snaplen := by
    split at h
    · cases h
      exact ⟨rfl, rfl⟩
    · obtain ⟨next', -, h⟩ := Option.bind_eq_some_iff.mp h
      cases h
      exact ⟨rfl, rfl⟩
  omega

theorem parseBlockDesc_eq (h : 48 ≤ block.length) :
    parseBlockDesc host block = some ⟨host.field block 12 4, host.field block 16 4⟩ :=
  if_neg (by unfold blockDescSize; omega)

end Fields

/-- The geometry and the mapping of a ring agree. -/
structure Ring.Valid (host : Host) (r : Ring) : Prop where
  blockSize : 48 ≤ r.geom.blockSize
  blockCount : 1 ≤ r.geom.blockCount
  mapped : r.mapLen = r.geom.blockSize * r.geom.blockCount
  addressed : r.mapLen < 2 ^ host.width
  cur : r.curBlock < r.geom.blockCount

namespace Ring

variable (host : Host)

/-- The bytes of block `i`. -/
def blockBytes (r : Ring) (i : Nat) : List UInt8 :=
  r.map.slice (i * r.geom.blockSize) r.geom.blockSize

/-- The status of block `i` in the memory `map`. -/
def statusIn (map : Memory) (geom : Geometry) (i : Nat) : Nat :=
  host.field (map.slice (i * geom.blockSize + blockStatusOffset) 4) 0 4

/-- The kernel has handed block `i` over. -/
def UserIn (map : Memory) (geom : Geometry) (i : Nat) : Prop :=
  statusIn host map geom i &&& tpStatusUser ≠ 0

instance (map : Memory) (geom : Geometry) (i : Nat) : Decidable (UserIn host map geom i) :=
  inferInstanceAs (Decidable (¬ _))

/-- The ring behind `release_block`. -/
def released (r : Ring) : Ring :=
  { r with
    map := r.map.write (r.curBlock * r.geom.blockSize + blockStatusOffset)
      (host.endian.bytes 4 tpStatusKernel)
    curBlock := (r.curBlock + 1) % r.geom.blockCount
    walk := none }

/-- The turn of the loop, without the checks of a valid ring. -/
def act (r : Ring) : Turn :=
  match r.walk with
  | none =>
    if UserIn host r.map r.geom r.curBlock then
      .take { r with walk := some ⟨host.field (r.blockBytes r.curBlock) 16 4,
        host.field (r.blockBytes r.curBlock) 12 4⟩ }
    else if r.nonblocking then .idle else .wait
  | some walk =>
    if walk.remaining = 0 then .release (r.released host)
    else match parseFrame host (r.blockBytes r.curBlock) walk.offset r.snaplen with
      | none => .release (r.released host)
      | some (m, next) =>
        .frame { m with offset := r.curBlock * r.geom.blockSize + m.offset }
          { r with walk := some (nextWalk walk next) }

variable {host} {r : Ring}

theorem bytes_ok {start len : Nat} {bs : List UInt8} (h : r.bytes start len = .ok bs) :
    bs = r.map.slice start len := by
  unfold bytes at h
  split at h
  · cases h
  · exact (Except.ok.inj h).symm

namespace Valid

theorem block_end (h : r.Valid host) {i : Nat} (hi : i < r.geom.blockCount) :
    i * r.geom.blockSize + r.geom.blockSize ≤ r.mapLen := by
  rw [h.mapped, Nat.mul_comm r.geom.blockSize]
  calc i * r.geom.blockSize + r.geom.blockSize
      = (i + 1) * r.geom.blockSize := by rw [Nat.add_mul, Nat.one_mul]
    _ ≤ r.geom.blockCount * r.geom.blockSize := Nat.mul_le_mul_right _ hi

theorem mul_eq (h : r.Valid host) {i : Nat} (hi : i < r.geom.blockCount) :
    host.mul i r.geom.blockSize = .ok (i * r.geom.blockSize) := by
  have := h.block_end hi
  have := h.addressed
  unfold Host.mul Usize.checkedMul
  rw [if_pos (by omega)]
  rfl

theorem add_eq (h : r.Valid host) {a b : Nat} (hb : a + b ≤ r.mapLen) :
    host.add a b = .ok (a + b) := by
  have := h.addressed
  unfold Host.add Usize.checkedAdd
  rw [if_pos (by omega)]
  rfl

theorem bytes_eq {start len : Nat} (hb : start + len ≤ r.mapLen) :
    r.bytes start len = .ok (r.map.slice start len) := if_neg (by omega)

theorem block_eq (h : r.Valid host) {i : Nat} (hi : i < r.geom.blockCount) :
    r.block host i = .ok (r.blockBytes i) := by
  unfold block
  rw [h.mul_eq hi]
  exact bytes_eq (h.block_end hi)

theorem statusWord_eq (h : r.Valid host) {i : Nat} (hi : i < r.geom.blockCount) :
    r.statusWord host i = .ok (i * r.geom.blockSize + blockStatusOffset) := by
  have := h.block_end hi
  have := h.blockSize
  unfold statusWord
  rw [if_neg (not_not.mpr hi), h.mul_eq hi]
  exact h.add_eq (by unfold blockStatusOffset; omega)

theorem blockStatus_eq (h : r.Valid host) {i : Nat} (hi : i < r.geom.blockCount) :
    r.blockStatus host i = .ok (statusIn host r.map r.geom i) := by
  have := h.block_end hi
  have := h.blockSize
  have hbytes : r.bytes (i * r.geom.blockSize + blockStatusOffset) 4 = _ :=
    bytes_eq (by unfold blockStatusOffset; omega)
  unfold blockStatus
  rw [h.statusWord_eq hi]
  simp only [bind, Except.bind, hbytes]
  rfl

theorem releaseBlock_eq (h : r.Valid host) :
    r.releaseBlock host = .ok (r.released host) := by
  have := h.block_end h.cur
  have := h.blockSize
  have hcur := h.cur
  have hcount : r.geom.blockCount ≤ r.mapLen := by
    rw [h.mapped]
    exact Nat.le_mul_of_pos_left _ (by omega)
  have hbytes : r.bytes (r.curBlock * r.geom.blockSize + blockStatusOffset) 4 = _ :=
    bytes_eq (by unfold blockStatusOffset; omega)
  have hnext : host.add r.curBlock 1 = .ok (r.curBlock + 1) := h.add_eq (by omega)
  have hpos : r.geom.blockCount ≠ 0 := by omega
  unfold releaseBlock
  rw [h.statusWord_eq h.cur]
  simp only [bind, Except.bind, hbytes, hnext, hpos, if_false]
  rfl

/-- In a valid ring no step of a turn goes wrong. -/
theorem turn_eq (h : r.Valid host) : r.turn host = .ok (r.act host) := by
  have hlen : (r.blockBytes r.curBlock).length = r.geom.blockSize := slice_length
  have hend := h.block_end h.cur
  unfold turn act
  cases r.walk with
  | none =>
    simp only [h.blockStatus_eq h.cur, bind, Except.bind]
    by_cases hu : UserIn host r.map r.geom r.curBlock
    · rw [if_neg hu, if_pos hu]
      simp only [h.block_eq h.cur, pure, Except.pure,
        @parseBlockDesc_eq host _ (hlen.symm ▸ h.blockSize)]
    · rw [if_pos (not_not.mp hu), if_neg hu]
      rfl
  | some walk =>
    by_cases hz : walk.remaining = 0
    · simp only [hz, if_true, h.releaseBlock_eq, bind, Except.bind, pure, Except.pure]
    · simp only [hz, if_false, h.mul_eq h.cur, h.block_eq h.cur, bind, Except.bind, pure,
        Except.pure]
      cases hp : parseFrame host (r.blockBytes r.curBlock) walk.offset r.snaplen with
      | none => simp only [h.releaseBlock_eq]
      | some p =>
        obtain ⟨m, next⟩ := p
        have hm := (parseFrame_bounds hp).1
        have hadd : host.add (r.curBlock * r.geom.blockSize) m.offset = .ok _ :=
          h.add_eq (by omega)
        simp only [hadd]

end Valid

/-- Status words of different blocks do not overlap. -/
theorem statusWord_apart {size i j : Nat} (hs : 48 ≤ size) (h : i ≠ j) :
    i * size + 12 ≤ j * size + 8 ∨ j * size + 12 ≤ i * size + 8 := by
  have hstep : ∀ {a b : Nat}, a < b → a * size + size ≤ b * size := by
    intro a b hlt
    calc a * size + size = (a + 1) * size := by rw [Nat.add_mul, Nat.one_mul]
      _ ≤ b * size := Nat.mul_le_mul_right _ hlt
  rcases Nat.lt_or_gt_of_ne h with hlt | hgt
  · have := hstep hlt
    omega
  · have := hstep hgt
    omega

theorem kernelStatus_length : (host.endian.bytes 4 tpStatusKernel).length = 4 := by
  cases host.endian <;> rfl

/-- A release clears the status of its block and of no other one. -/
theorem statusIn_released (hs : 48 ≤ r.geom.blockSize) (i : Nat) :
    statusIn host (r.released host).map r.geom i =
      if i = r.curBlock then 0 else statusIn host r.map r.geom i := by
  have hlen : (host.endian.bytes 4 tpStatusKernel).length = 4 := kernelStatus_length
  unfold statusIn released
  by_cases hi : i = r.curBlock
  · rw [if_pos hi, hi]
    have h := @slice_write r.map (r.curBlock * r.geom.blockSize + blockStatusOffset)
      (host.endian.bytes 4 tpStatusKernel)
    rw [hlen] at h
    rw [h]
    unfold Host.field
    cases host.endian <;> decide
  · rw [if_neg hi]
    congr 1
    apply slice_congr
    intro j hj
    apply write_frame
    have := statusWord_apart hs hi
    unfold blockStatusOffset
    omega

theorem userIn_released (hs : 48 ≤ r.geom.blockSize) (i : Nat) :
    UserIn host (r.released host).map r.geom i ↔ i ≠ r.curBlock ∧ UserIn host r.map r.geom i := by
  unfold UserIn
  rw [statusIn_released hs]
  by_cases hi : i = r.curBlock
  · simp [hi]
  · simp [hi]

theorem Valid.released (h : r.Valid host) : (r.released host).Valid host :=
  ⟨h.blockSize, h.blockCount, h.mapped, h.addressed, Nat.mod_lt _ h.blockCount⟩

section Termination

variable (host r) in
/-- The blocks the kernel has handed over. -/
def handed : Finset Nat :=
  (Finset.range r.geom.blockCount).filter fun i => UserIn host r.map r.geom i

variable (host r) in
/-- What is left to do before a call returns: every handed block but the one in hand costs a
turn to take it and a turn to release it. -/
def work : Nat :=
  match r.walk with
  | none => 2 * (r.handed host).card + 1
  | some _ => 2 * ((r.handed host).erase r.curBlock).card + 2

theorem handed_released (hs : 48 ≤ r.geom.blockSize) :
    (r.released host).handed host = (r.handed host).erase r.curBlock := by
  ext i
  simp only [handed, Finset.mem_filter, Finset.mem_erase]
  rw [show (r.released host).geom = r.geom from rfl, userIn_released hs]
  tauto

theorem work_le (h : r.Valid host) : r.work host ≤ 2 * r.geom.blockCount + 1 := by
  have hcard : (r.handed host).card ≤ r.geom.blockCount :=
    (Finset.card_filter_le _ _).trans_eq (Finset.card_range _)
  unfold work
  cases r.walk with
  | none => simpa using hcard
  | some walk =>
    have hsub : (r.handed host).erase r.curBlock ⊆
        (Finset.range r.geom.blockCount).erase r.curBlock :=
      Finset.erase_subset_erase _ (Finset.filter_subset _ _)
    have hle := Finset.card_le_card hsub
    rw [Finset.card_erase_of_mem (Finset.mem_range.mpr h.cur), Finset.card_range] at hle
    have := h.blockCount
    change 2 * _ + 2 ≤ _
    omega

theorem work_released (hs : 48 ≤ r.geom.blockSize) (hw : r.walk ≠ none) :
    (r.released host).work host < r.work host := by
  obtain ⟨walk, hwalk⟩ := Option.ne_none_iff_exists'.mp hw
  unfold work
  rw [handed_released hs, hwalk]
  exact Nat.lt_succ_self _

theorem work_take (h : r.Valid host) (hw : r.walk = none)
    (hu : UserIn host r.map r.geom r.curBlock) (walk : Walk) :
    work host { r with walk := some walk } < r.work host := by
  have hmem : r.curBlock ∈ r.handed host :=
    Finset.mem_filter.mpr ⟨Finset.mem_range.mpr h.cur, hu⟩
  have hcard := Finset.card_erase_lt_of_mem hmem
  unfold work
  rw [hw]
  change 2 * ((r.handed host).erase r.curBlock).card + 2 < 2 * (r.handed host).card + 1
  omega

end Termination

/-- The reader holds a block only while its status says so. -/
def Held (host : Host) (r : Ring) : Prop :=
  r.walk ≠ none → UserIn host r.map r.geom r.curBlock

/-- The frame lies in the block that is being walked, and is cut to the snaplen. -/
structure Inside (m : FrameMeta) (r : Ring) : Prop where
  owned : r.walk ≠ none
  first : r.curBlock * r.geom.blockSize ≤ m.offset
  last : m.offset + m.len ≤ r.curBlock * r.geom.blockSize + r.geom.blockSize
  mapped : m.offset + m.len ≤ r.mapLen
  cut : m.len ≤ r.snaplen

/-- What a turn keeps, and what it does to the ring. -/
theorem act_spec (h : r.Valid host) :
    match r.act host with
    | .take r' => r.walk = none ∧ UserIn host r.map r.geom r.curBlock ∧
        r' = { r with walk := some ⟨host.field (r.blockBytes r.curBlock) 16 4,
          host.field (r.blockBytes r.curBlock) 12 4⟩ }
    | .release r' => r.walk ≠ none ∧ r' = r.released host
    | .frame m r' => Inside m r' ∧ ∃ walk next, r.walk = some walk ∧ walk.remaining ≠ 0 ∧
        r' = { r with walk := some (nextWalk walk next) }
    | .idle => r.walk = none ∧ r.nonblocking = true
    | .wait => r.walk = none ∧ r.nonblocking = false := by
  unfold act
  cases hw : r.walk with
  | none =>
    by_cases hu : UserIn host r.map r.geom r.curBlock
    · simp [hu]
    · cases hn : r.nonblocking <;> simp [hu]
  | some walk =>
    by_cases hz : walk.remaining = 0
    · simp [hz]
    · simp only [hz, if_false]
      cases hp : parseFrame host (r.blockBytes r.curBlock) walk.offset r.snaplen with
      | none => simp
      | some p =>
        obtain ⟨m, next⟩ := p
        obtain ⟨hin, hcut⟩ := parseFrame_bounds hp
        have hlen : (r.blockBytes r.curBlock).length = r.geom.blockSize := slice_length
        have hend := h.block_end h.cur
        rw [hlen] at hin
        refine ⟨⟨by simp, Nat.le_add_right _ _, ?_, ?_, hcut⟩, walk, next, rfl, hz, rfl⟩
        · change r.curBlock * r.geom.blockSize + m.offset + m.len ≤
            r.curBlock * r.geom.blockSize + r.geom.blockSize
          omega
        · change r.curBlock * r.geom.blockSize + m.offset + m.len ≤ r.mapLen
          omega

/-- With no write of the kernel in between, a call that does not block returns, and no step of
it goes wrong. -/
theorem nextFrame_returns {wait : Ring → Except Error Ring} {fuel : Nat} (h : r.Valid host)
    (hn : r.nonblocking = true) (hf : r.work host < fuel) :
    ∃ result, nextFrame host wait fuel r = some (.ok result) := by
  induction fuel generalizing r with
  | zero => omega
  | succ fuel ih =>
    have hact := act_spec h
    unfold nextFrame
    rw [h.turn_eq]
    cases ht : r.act host with
    | take r' =>
      rw [ht] at hact
      obtain ⟨hw, hu, rfl⟩ := hact
      have hless := work_take h hw hu ⟨host.field (r.blockBytes r.curBlock) 16 4,
        host.field (r.blockBytes r.curBlock) 12 4⟩
      exact ih ⟨h.blockSize, h.blockCount, h.mapped, h.addressed, h.cur⟩ hn (by omega)
    | release r' =>
      rw [ht] at hact
      obtain ⟨hw, rfl⟩ := hact
      have hless : (r.released host).work host < r.work host := work_released h.blockSize hw
      exact ih h.released hn (by omega)
    | frame m r' => exact ⟨_, rfl⟩
    | idle => exact ⟨_, rfl⟩
    | wait =>
      rw [ht, hn] at hact
      cases hact.2

/-- Every frame that a call returns lies in the block it walks, and the kernel has handed that
block over unless it has taken back the one the call began with. -/
theorem nextFrame_inside {wait : Ring → Except Error Ring} {fuel : Nat} {m : FrameMeta}
    {r' : Ring} (h : r.Valid host) (hn : r.nonblocking = true)
    (hf : nextFrame host wait fuel r = some (.ok (some m, r'))) :
    Inside m r' ∧ (r.Held host → UserIn host r'.map r'.geom r'.curBlock) := by
  induction fuel generalizing r with
  | zero => cases hf
  | succ fuel ih =>
    have hact := act_spec h
    unfold nextFrame at hf
    rw [h.turn_eq] at hf
    cases ht : r.act host with
    | take r₁ =>
      rw [ht] at hact hf
      obtain ⟨hw, hu, rfl⟩ := hact
      obtain ⟨hin, hheld⟩ := ih (r := { r with walk := some _ })
        ⟨h.blockSize, h.blockCount, h.mapped, h.addressed, h.cur⟩ hn hf
      exact ⟨hin, fun _ => hheld fun _ => hu⟩
    | release r₁ =>
      rw [ht] at hact hf
      obtain ⟨hw, rfl⟩ := hact
      obtain ⟨hin, hheld⟩ := ih h.released hn hf
      exact ⟨hin, fun _ => hheld fun hne => absurd rfl hne⟩
    | frame m₁ r₁ =>
      rw [ht] at hact hf
      obtain ⟨hin, walk, next, hw, -, rfl⟩ := hact
      cases hf
      exact ⟨hin, fun hh => hh (by rw [hw]; simp)⟩
    | idle =>
      rw [ht] at hf
      cases hf
    | wait =>
      rw [ht, hn] at hact
      cases hact.2

end Ring

/-- What happens to a ring: turns of the reader, by the block they are about, and what the
kernel and the caller do between them. -/
inductive Event where
  /-- The reader takes a block whose descriptor counts `numPkts` frames. -/
  | take (block numPkts : Nat)
  | frame (block : Nat) (m : FrameMeta)
  | release (block : Nat)
  | idle
  /-- The kernel writes to the mapping. -/
  | kernel (map : Memory)
  | setNonblocking (nb : Bool)

namespace Event

def isTake : Event → Bool
  | .take .. => true
  | _ => false

def isFrame : Event → Bool
  | .frame .. => true
  | _ => false

/-- The event reads bytes of block `b`, other than its status word. -/
def Reads (b : Nat) : Event → Prop
  | .take block _ => block = b
  | .frame block _ => block = b
  | .release block => block = b
  | _ => False

/-- The kernel hands block `b` over. -/
def HandsOver (host : Host) (geom : Geometry) (b : Nat) : Event → Prop
  | .kernel map => Ring.UserIn host map geom b
  | _ => False

end Event

/-- One step of the reader, which reads frames in any mode, of the kernel, which writes what it
likes, or of the caller. -/
inductive Step (host : Host) : Ring → Event → Ring → Prop where
  | take {r r' : Ring} (h : r.turn host = .ok (.take r')) :
      Step host r (.take r.curBlock (host.field (r.blockBytes r.curBlock) 12 4)) r'
  | frame {r r' : Ring} {m : FrameMeta} (h : r.turn host = .ok (.frame m r')) :
      Step host r (.frame r.curBlock m) r'
  | release {r r' : Ring} (h : r.turn host = .ok (.release r')) :
      Step host r (.release r.curBlock) r'
  | idle {r : Ring} (h : r.turn host = .ok .idle ∨ r.turn host = .ok .wait) :
      Step host r .idle r
  | kernel {r : Ring} (map : Memory) : Step host r (.kernel map) { r with map }
  | setNonblocking {r : Ring} (nb : Bool) :
      Step host r (.setNonblocking nb) { r with nonblocking := nb }

inductive Run (host : Host) : Ring → List Event → Ring → Prop where
  | nil {r : Ring} : Run host r [] r
  | cons {r r₁ r' : Ring} {e : Event} {tr : List Event} (h : Step host r e r₁)
      (hr : Run host r₁ tr r') : Run host r (e :: tr) r'

section Runs

variable {host : Host} {r r' : Ring} {e : Event} {tr : List Event}

/-- What one step does, for a valid ring. -/
theorem Step.cases (h : r.Valid host) (hs : Step host r e r') :
    (∃ walk, e = .take r.curBlock (host.field (r.blockBytes r.curBlock) 12 4) ∧ r.walk = none ∧
      Ring.UserIn host r.map r.geom r.curBlock ∧ r' = { r with walk := some walk } ∧
      walk.remaining = host.field (r.blockBytes r.curBlock) 12 4) ∨
    (e = .release r.curBlock ∧ r.walk ≠ none ∧ r' = r.released host) ∨
    (∃ m walk next, e = .frame r.curBlock m ∧ r.walk = some walk ∧ walk.remaining ≠ 0 ∧
      r' = { r with walk := some (Ring.nextWalk walk next) }) ∨
    (e = .idle ∧ r' = r) ∨ (∃ map, e = .kernel map ∧ r' = { r with map }) ∨
    ∃ nb, e = .setNonblocking nb ∧ r' = { r with nonblocking := nb } := by
  have hact := Ring.act_spec h
  cases hs with
  | take ht =>
    rw [h.turn_eq, Except.ok.injEq] at ht
    rw [ht] at hact
    exact .inl ⟨_, rfl, hact.1, hact.2.1, hact.2.2, rfl⟩
  | frame ht =>
    rw [h.turn_eq, Except.ok.injEq] at ht
    rw [ht] at hact
    obtain ⟨-, walk, next, hw, hz, hr⟩ := hact
    exact .inr (.inr (.inl ⟨_, walk, next, rfl, hw, hz, hr⟩))
  | release ht =>
    rw [h.turn_eq, Except.ok.injEq] at ht
    rw [ht] at hact
    exact .inr (.inl ⟨rfl, hact.1, hact.2⟩)
  | idle => exact .inr (.inr (.inr (.inl ⟨rfl, rfl⟩)))
  | kernel map => exact .inr (.inr (.inr (.inr (.inl ⟨map, rfl, rfl⟩))))
  | setNonblocking nb => exact .inr (.inr (.inr (.inr (.inr ⟨nb, rfl, rfl⟩))))

theorem Step.valid (h : r.Valid host) (hs : Step host r e r') : r'.Valid host := by
  rcases hs.cases h with ⟨walk, -, -, -, rfl, -⟩ | ⟨-, -, rfl⟩ | ⟨m, walk, next, -, -, -, rfl⟩ |
    ⟨-, rfl⟩ | ⟨map, -, rfl⟩ | ⟨nb, -, rfl⟩
  case inr.inl => exact h.released
  all_goals exact ⟨h.blockSize, h.blockCount, h.mapped, h.addressed, h.cur⟩

theorem Run.valid (hr : Run host r tr r') (h : r.Valid host) : r'.Valid host := by
  induction hr with
  | nil => exact h
  | cons hs _ ih => exact ih (hs.valid h)

/-- Frames the reader may still return from the block in hand. -/
def remaining (r : Ring) : Nat :=
  match r.walk with
  | none => 0
  | some walk => walk.remaining

theorem nextWalk_remaining (walk : Walk) (next : Option Nat) (h : walk.remaining ≠ 0) :
    (Ring.nextWalk walk next).remaining < walk.remaining := by
  cases next with
  | none => exact Nat.pos_of_ne_zero h
  | some offset =>
    simp only [Ring.nextWalk]
    split
    · exact Nat.sub_lt (by omega) Nat.one_pos
    · exact Nat.pos_of_ne_zero h

/-- Until it takes another block, the reader returns no more frames than the count of the one in
hand, all of them of that block. -/
theorem Run.frames_le (hr : Run host r tr r') (h : r.Valid host)
    (ht : ∀ e ∈ tr, e.isTake = false) :
    (tr.filter Event.isFrame).length ≤ remaining r ∧
      ∀ b m, Event.frame b m ∈ tr → b = r.curBlock := by
  induction hr with
  | nil => simp
  | @cons r r₁ r' e tr hs hr ih =>
    have hrest := ih (hs.valid h) fun e he => ht e (List.mem_cons_of_mem _ he)
    have hfirst := ht e List.mem_cons_self
    rcases hs.cases h with ⟨walk, rfl, -⟩ | ⟨rfl, hw, rfl⟩ | ⟨m, walk, next, rfl, hw, hz, rfl⟩ |
      ⟨rfl, rfl⟩ | ⟨map, rfl, rfl⟩ | ⟨nb, rfl, rfl⟩
    · cases hfirst
    · -- the walk is over: no frame follows before a take
      have hnone : (tr.filter Event.isFrame).length = 0 := Nat.le_zero.mp hrest.1
      refine ⟨by simpa [Event.isFrame] using hnone.le.trans (Nat.zero_le _), ?_⟩
      intro b m hm
      rcases List.mem_cons.mp hm with hm | hm
      · cases hm
      · have hmem : Event.frame b m ∈ tr.filter Event.isFrame := List.mem_filter.mpr ⟨hm, rfl⟩
        rw [List.eq_nil_of_length_eq_zero hnone] at hmem
        cases hmem
    · constructor
      · have hless := nextWalk_remaining walk next hz
        have hlen : (tr.filter Event.isFrame).length ≤ (Ring.nextWalk walk next).remaining :=
          hrest.1
        rw [List.filter_cons_of_pos rfl, List.length_cons, remaining, hw]
        change _ + 1 ≤ walk.remaining
        omega
      · intro b m' hm
        rcases List.mem_cons.mp hm with hm | hm
        · cases hm
          rfl
        · exact hrest.2 b m' hm
    all_goals
      refine ⟨hrest.1, ?_⟩
      intro b m hm
      rcases List.mem_cons.mp hm with hm | hm
      · cases hm
      · exact hrest.2 b m hm

/-- The kernel has block `b` and the reader does not walk it. -/
def Away (host : Host) (b : Nat) (r : Ring) : Prop :=
  ¬ Ring.UserIn host r.map r.geom b ∧ (r.walk ≠ none → r.curBlock ≠ b)

theorem Step.away {b : Nat} (h : r.Valid host) (hs : Step host r e r') (ha : Away host b r)
    (hk : ¬ e.HandsOver host r.geom b) : ¬ e.Reads b ∧ Away host b r' ∧ r'.geom = r.geom := by
  rcases hs.cases h with ⟨walk, rfl, -, hu, rfl, -⟩ | ⟨rfl, hw, rfl⟩ |
    ⟨m, walk, next, rfl, hw, -, rfl⟩ | ⟨rfl, rfl⟩ | ⟨map, rfl, rfl⟩ | ⟨nb, rfl, rfl⟩
  · have hne : r.curBlock ≠ b := by
      rintro rfl
      exact ha.1 hu
    exact ⟨hne, ⟨ha.1, fun _ => hne⟩, rfl⟩
  · refine ⟨ha.2 hw, ⟨?_, fun hne => absurd rfl hne⟩, rfl⟩
    intro hu
    exact ha.1 ((Ring.userIn_released h.blockSize b).mp hu).2
  · have hne : r.curBlock ≠ b := ha.2 (by rw [hw]; simp)
    exact ⟨hne, ⟨ha.1, fun _ => hne⟩, rfl⟩
  · exact ⟨fun hf => hf, ha, rfl⟩
  · exact ⟨fun hf => hf, ⟨hk, ha.2⟩, rfl⟩
  · exact ⟨fun hf => hf, ha, rfl⟩

/-- A block that is with the kernel is not read before the kernel hands it over. -/
theorem Run.away {b : Nat} (hr : Run host r tr r') (h : r.Valid host) (ha : Away host b r)
    (hk : ∀ e ∈ tr, ¬ e.HandsOver host r.geom b) : ∀ e ∈ tr, ¬ e.Reads b := by
  induction hr with
  | nil => simp
  | cons hs _ ih =>
    obtain ⟨hread, haway, hgeom⟩ := hs.away h ha (hk _ List.mem_cons_self)
    intro e he
    rcases List.mem_cons.mp he with rfl | he
    · exact hread
    · refine ih (hs.valid h) haway ?_ e he
      intro e he
      rw [hgeom]
      exact hk e (List.mem_cons_of_mem _ he)

/-- A block whose next frame cannot be parsed goes back to the kernel. -/
theorem malformed_released {walk : Walk} (h : r.Valid host) (hw : r.walk = some walk)
    (hz : walk.remaining ≠ 0)
    (hp : parseFrame host (r.blockBytes r.curBlock) walk.offset r.snaplen = none) :
    r.turn host = .ok (.release (r.released host)) ∧ Away host r.curBlock (r.released host) := by
  constructor
  · rw [h.turn_eq, Ring.act, hw]
    simp only [hz, if_false, hp]
  · refine ⟨?_, fun hne => absurd rfl hne⟩
    intro hu
    exact ((Ring.userIn_released h.blockSize _).mp hu).1 rfl

end Runs

/-- A ring as `open` returns it, over any memory. -/
structure Opened (host : Host) (r : Ring) : Prop extends r.Valid host where
  start : r.curBlock = 0
  walk : r.walk = none

/-- What the reader promises in the state `r`, whatever the mapped bytes are. -/
structure WalksSafely (host : Host) (r : Ring) : Prop where
  returns : r.nonblocking = true → ∀ wait, ∃ result,
    Ring.nextFrame host wait (2 * r.geom.blockCount + 2) r = some (.ok result)
  inside : r.nonblocking = true → ∀ wait fuel m r',
    Ring.nextFrame host wait fuel r = some (.ok (some m, r')) →
      Ring.Inside m r' ∧ (r.Held host → Ring.UserIn host r'.map r'.geom r'.curBlock)
  /-- Between taking a block and taking another the reader returns at most as many frames as
  the descriptor of the block counts, all of that block. -/
  counted : ∀ b n r₁ tr r', Step host r (.take b n) r₁ → Run host r₁ tr r' →
    (∀ e ∈ tr, e.isTake = false) →
      (tr.filter Event.isFrame).length ≤ n ∧ ∀ b' m, Event.frame b' m ∈ tr → b' = b
  /-- It returns none before it takes one. -/
  taken : r.walk = none → ∀ tr r', Run host r tr r' → (∀ e ∈ tr, e.isTake = false) →
    ∀ b m, Event.frame b m ∉ tr
  /-- A block whose next frame cannot be parsed is released, and not read until the kernel
  hands it over. -/
  malformed : ∀ walk, r.walk = some walk → walk.remaining ≠ 0 →
    parseFrame host (r.blockBytes r.curBlock) walk.offset r.snaplen = none →
      ∃ r₁, Step host r (.release r.curBlock) r₁ ∧
        ¬ Ring.UserIn host r₁.map r₁.geom r.curBlock ∧
        ∀ tr r', Run host r₁ tr r' → (∀ e ∈ tr, ¬ e.HandsOver host r₁.geom r.curBlock) →
          ∀ e ∈ tr, ¬ e.Reads r.curBlock

/-- The reader is safe in every state that the reader, the kernel and the caller can reach. -/
theorem ring_walksSafely {host : Host} {r₀ r : Ring} {tr₀ : List Event} (ho : Opened host r₀)
    (hr : Run host r₀ tr₀ r) : WalksSafely host r := by
  have h := hr.valid ho.toValid
  constructor
  · intro hn wait
    exact Ring.nextFrame_returns h hn (Nat.lt_succ_of_le (Ring.work_le h))
  · intro hn wait fuel m r' hf
    exact Ring.nextFrame_inside h hn hf
  · intro b n r₁ tr r' hs hr' ht
    have hle := hr'.frames_le (hs.valid h) ht
    rcases hs.cases h with ⟨walk, he, -, -, rfl, hrem⟩ | ⟨he, -⟩ | ⟨m, walk, next, he, -⟩ |
      ⟨he, -⟩ | ⟨map, he, -⟩ | ⟨nb, he, -⟩
    · cases he
      exact ⟨hle.1.trans hrem.le, hle.2⟩
    all_goals cases he
  · intro hw tr r' hr' ht b m hm
    have hle := (hr'.frames_le h ht).1
    rw [remaining, hw] at hle
    have hmem : Event.frame b m ∈ tr.filter Event.isFrame := List.mem_filter.mpr ⟨hm, rfl⟩
    rw [List.eq_nil_of_length_eq_zero (Nat.le_zero.mp hle)] at hmem
    cases hmem
  · intro walk hw hz hp
    obtain ⟨hturn, haway⟩ := malformed_released h hw hz hp
    refine ⟨_, .release hturn, haway.1, ?_⟩
    intro tr r' hr' hk
    exact hr'.away h.released haway hk

/-- A ring of one block with one frame of two bytes. -/
def oneFrameRing : Ring where
  map i := ([(8, 1), (12, 1), (16, 48), (60, 2), (64, 2), (72, 48), (96, 170), (97, 187)] :
    List (Nat × UInt8)).lookup i |>.getD 0
  mapLen := 4096
  geom := ⟨4096, 1, 2048, 2, 4096⟩
  curBlock := 0
  walk := none
  snaplen := 65535
  nonblocking := true

theorem oneFrameRing_walksSafely : Opened ⟨64, .little⟩ oneFrameRing ∧
    WalksSafely ⟨64, .little⟩ oneFrameRing :=
  have ho : Opened ⟨64, .little⟩ oneFrameRing :=
    ⟨⟨by decide, by decide, by decide, by decide, by decide⟩, rfl, rfl⟩
  ⟨ho, ring_walksSafely ho .nil⟩

end PktBaffle.Pkttap.LinuxRing
