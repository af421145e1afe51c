import PktBaffle.Pkttap.File

namespace PktBaffle.Pkttap.File
open Classic (LinkType)

/-- The filter lets the bytes through. -/
def passes (filter : Option (List Bpf.Insn)) (data : List UInt8) : Bool :=
  match filter with
  | none => true
  | some prog => Vm.run prog data

namespace Block

/-- The packet of a block, under a table of link types. -/
def found (idbTypes : List LinkType) : Block → Option PacketRef
  | .enhancedPacket interfaceId ts originalLen data =>
    some ⟨data, ts.asSecs * 10 ^ 9 + ts.subsecNanos, originalLen,
      interfaceType idbTypes interfaceId.toNat⟩
  | .simplePacket originalLen data => some ⟨data, 0, originalLen, interfaceType idbTypes 0⟩
  | .packet interfaceId ts originalLen data =>
    some ⟨data, ts.toNat * 1000, originalLen, interfaceType idbTypes interfaceId.toNat⟩
  | _ => none

/-- The table behind a block. -/
def table (idbTypes : List LinkType) : Block → List LinkType
  | .interfaceDescription linktype => idbTypes ++ [datalinkToLinkType linktype]
  | _ => idbTypes

end Block

/-- The packets of a pcapng file and the errors between them. -/
def ngContents : List LinkType → Stream Block → List (Except Error PacketRef)
  | _, [] => []
  | idbTypes, .error e :: rest => .error (.pcap e) :: ngContents idbTypes rest
  | idbTypes, .ok b :: rest =>
    ((b.found idbTypes).map .ok).toList ++ ngContents (b.table idbTypes) rest

/-- The packet of a pcap record. -/
def PcapPacket.ref (linkType : LinkType) (pkt : PcapPacket) : PacketRef :=
  ⟨pkt.data, pkt.timestamp.asSecs * 10 ^ 9 + pkt.timestamp.subsecNanos, pkt.origLen, linkType⟩

def pcapContents (linkType : LinkType) (records : Stream PcapPacket) :
    List (Except Error PacketRef) :=
  records.map fun r => (r.mapError .pcap).map (PcapPacket.ref linkType)

namespace FileCapture

/-- What the file still holds. -/
def rest (cap : FileCapture) : List (Except Error PacketRef) :=
  match cap.inner with
  | .pcap records => pcapContents cap.linkType records
  | .pcapNg blocks => ngContents cap.idbLinkTypes blocks

/-- What a call returns of the contents of a file, and what it leaves. -/
def next (filter : Option (List Bpf.Insn)) : List (Except Error PacketRef) →
    Except Error (Option PacketRef) × List (Except Error PacketRef)
  | [] => (.ok none, [])
  | .error e :: cs => (.error e, cs)
  | .ok p :: cs => if passes filter p.data then (.ok (some p), cs) else next filter cs

end FileCapture

section Fetch

variable {cap : FileCapture} {idbTypes : List LinkType} {linkType : LinkType} {p : PacketRef}

theorem systemTime_eq {s n : Nat} (hs : s < 2 ^ 63) (hn : n < 10 ^ 9) :
    systemTime s n = .ok (s * 10 ^ 9 + n) := by
  have hdiv : n / 10 ^ 9 = 0 := Nat.div_eq_of_lt hn
  unfold systemTime
  rw [hdiv, Nat.add_zero, if_neg (by omega), if_neg (by omega)]

theorem Duration.new_eq (ts : Duration) (data : List UInt8) (n : Nat) :
    PacketRef.new data ts.asSecs ts.subsecNanos n linkType =
      .ok ⟨data, ts.asSecs * 10 ^ 9 + ts.subsecNanos, n, linkType⟩ := by
  unfold PacketRef.new
  rw [systemTime_eq ts.secs_lt ts.nanos_lt]
  rfl

/-- A count of microseconds, split the way the reader splits it. -/
theorem micros_new_eq (ts : UInt64) (data : List UInt8) (n : Nat) :
    PacketRef.new data (ts.toNat / 1000000) (ts.toNat % 1000000 * 1000 % 2 ^ 32) n linkType =
      .ok ⟨data, ts.toNat * 1000, n, linkType⟩ := by
  have hts := ts.toNat_lt
  have hcut : ts.toNat % 1000000 * 1000 % 2 ^ 32 = ts.toNat % 1000000 * 1000 :=
    Nat.mod_eq_of_lt (by omega)
  have hsum : ts.toNat / 1000000 * 10 ^ 9 + ts.toNat % 1000000 * 1000 = ts.toNat * 1000 := by
    omega
  unfold PacketRef.new
  rw [hcut, systemTime_eq (by omega) (by omega), hsum]
  rfl

theorem zero_new_eq (data : List UInt8) (n : Nat) :
    PacketRef.new data 0 0 n linkType = .ok ⟨data, 0, n, linkType⟩ := by
  unfold PacketRef.new
  rw [systemTime_eq (by decide) (by decide)]
  rfl

/-- The packet `p` is what a fetch has put into the scratch buffer. -/
def Ready (m : PktMeta) (scratch : List UInt8) (p : PacketRef) : Prop :=
  m.len = scratch.length ∧ scratch = p.data ∧
    PacketRef.new p.data m.tsSec m.tsNsec m.origLen m.linkType = .ok p

/-- What a fetch comes to that takes the next of what the file holds, and what it leaves. -/
inductive Answers (scratch : List UInt8) : List (Except Error PacketRef) →
    Except Error (Option PktMeta) → List (Except Error PacketRef) → Prop where
  | done : Answers scratch [] (.ok none) []
  | failed {e : Error} {cs : List (Except Error PacketRef)} :
      Answers scratch (.error e :: cs) (.error e) cs
  | found {m : PktMeta} {p : PacketRef} {cs : List (Except Error PacketRef)}
      (h : Ready m scratch p) : Answers scratch (.ok p :: cs) (.ok (some m)) cs

theorem fetchPcap_answers (linkType : LinkType) (scratch : List UInt8)
    (records : Stream PcapPacket) :
    Answers (fetchPcap linkType scratch records).2.1 (pcapContents linkType records)
      (fetchPcap linkType scratch records).1
      (pcapContents linkType (fetchPcap linkType scratch records).2.2) := by
  cases records with
  | nil => exact .done
  | cons r rest =>
    cases r with
    | error e => exact .failed
    | ok pkt => exact .found ⟨rfl, rfl, pkt.timestamp.new_eq _ _⟩

theorem fetchPcapng_answers (idbTypes : List LinkType) (scratch : List UInt8)
    (blocks : Stream Block) :
    Answers (fetchPcapng scratch idbTypes blocks).1.2.1 (ngContents idbTypes blocks)
      (fetchPcapng scratch idbTypes blocks).1.1
      (ngContents (fetchPcapng scratch idbTypes blocks).2
        (fetchPcapng scratch idbTypes blocks).1.2.2) := by
  induction blocks generalizing idbTypes with
  | nil => exact .done
  | cons r rest ih =>
    cases r with
    | error e => exact .failed
    | ok b =>
      cases b with
      | sectionHeader => exact ih idbTypes
      | other => exact ih idbTypes
      | interfaceDescription linktype => exact ih _
      | enhancedPacket id ts n data => exact .found ⟨rfl, rfl, ts.new_eq _ _⟩
      | packet id ts n data => exact .found ⟨rfl, rfl, micros_new_eq ts _ _⟩
      | simplePacket n data =>
        refine .found ⟨rfl, rfl, ?_⟩
        rw [interfaceType, ← List.head?_eq_getElem?]
        exact zero_new_eq _ _

namespace FileCapture

theorem fetch_answers (cap : FileCapture) :
    Answers cap.fetch.2.scratch cap.rest cap.fetch.1 cap.fetch.2.rest := by
  obtain ⟨inner, filter, linkType, table, scratch⟩ := cap
  cases inner with
  | pcap records => exact fetchPcap_answers linkType scratch records
  | pcapNg blocks => exact fetchPcapng_answers table scratch blocks

theorem fetch_filter (cap : FileCapture) : cap.fetch.2.filter = cap.filter := by
  obtain ⟨inner, filter, linkType, table, scratch⟩ := cap
  cases inner <;> rfl

theorem judge_eq {cap : FileCapture} {m : PktMeta} {p : PacketRef} (h : Ready m cap.scratch p) :
    cap.judge m = .ok (if passes cap.filter p.data then some p else none) := by
  obtain ⟨hlen, hdata, hnew⟩ := h
  have hbytes : cap.bytes m.len = .ok p.data := by
    unfold bytes
    rw [hlen, if_neg (Nat.lt_irrefl _), List.take_length, hdata]
  unfold judge
  rw [hbytes]
  cases hf : cap.filter with
  | none =>
    simp only [passes, if_true, bind, Except.bind, hnew]
    rfl
  | some prog =>
    cases hv : Vm.run prog p.data with
    | true =>
      simp only [passes, hv, bind, Except.bind, hnew]
      rfl
    | false =>
      simp only [passes, hv, bind, Except.bind]
      rfl

/-- The loop of a call finds what the filter lets through. -/
theorem nextLoop_eq {fuel : Nat} {cap : FileCapture} (h : cap.rest.length < fuel) :
    (nextLoop fuel cap).1 = (next cap.filter cap.rest).1 ∧
      (nextLoop fuel cap).2.rest = (next cap.filter cap.rest).2 ∧
      (nextLoop fuel cap).2.filter = cap.filter := by
  induction fuel generalizing cap with
  | zero => omega
  | succ fuel ih =>
    obtain ⟨r, cap', hfetch⟩ : ∃ r cap', cap.fetch = (r, cap') := ⟨_, _, rfl⟩
    have hans := cap.fetch_answers
    have hfilter := cap.fetch_filter
    rw [hfetch] at hans hfilter
    simp only [nextLoop, hfetch]
    generalize cap.rest = cs at hans h ⊢
    generalize hleft : cap'.rest = left at hans
    cases hans with
    | done => exact ⟨rfl, hleft, hfilter⟩
    | failed => exact ⟨rfl, hleft, hfilter⟩
    | @found m p left hready =>
      simp only [judge_eq hready, next]
      rw [show cap'.filter = cap.filter from hfilter]
      by_cases hp : passes cap.filter p.data = true
      · simp only [hp, if_true]
        exact ⟨trivial, hleft, hfilter⟩
      · simp only [hp]
        obtain ⟨h₁, h₂, h₃⟩ := @ih cap' (by rw [hleft]; exact Nat.lt_of_succ_lt_succ h)
        rw [hleft, show cap'.filter = cap.filter from hfilter] at h₁ h₂
        exact ⟨h₁, h₂, h₃.trans hfilter⟩

theorem ngContents_length (idbTypes : List LinkType) (blocks : Stream Block) :
    (ngContents idbTypes blocks).length ≤ blocks.length := by
  induction blocks generalizing idbTypes with
  | nil => exact Nat.le_refl 0
  | cons r rest ih =>
    cases r with
    | error e => exact Nat.succ_le_succ (ih idbTypes)
    | ok b =>
      have hone : ((b.found idbTypes).map (Except.ok (ε := Error))).toList.length ≤ 1 := by
        cases b.found idbTypes <;> simp
      have := ih (b.table idbTypes)
      simp only [ngContents, List.length_append, List.length_cons]
      omega

theorem rest_length (cap : FileCapture) : cap.rest.length ≤ cap.remaining := by
  obtain ⟨inner, filter, linkType, table, scratch⟩ := cap
  cases inner with
  | pcap records => exact (List.length_map _).le
  | pcapNg blocks => exact ngContents_length table blocks

/-- A call returns the next of what the file holds that the filter lets through. -/
theorem nextPacket_eq (cap : FileCapture) :
    cap.nextPacket.1 = (next cap.filter cap.rest).1 ∧
      cap.nextPacket.2.rest = (next cap.filter cap.rest).2 ∧
      cap.nextPacket.2.filter = cap.filter :=
  nextLoop_eq (Nat.lt_succ_of_le cap.rest_length)

/-- What the calls return up to the end of the file. -/
def drain : Nat → FileCapture → List (Except Error PacketRef)
  | 0, _ => []
  | fuel + 1, cap =>
    match cap.nextPacket with
    | (.ok none, _) => []
    | (.ok (some p), cap) => .ok p :: drain fuel cap
    | (.error e, cap) => .error e :: drain fuel cap

def kept (filter : Option (List Bpf.Insn)) : Except Error PacketRef → Bool
  | .ok p => passes filter p.data
  | .error _ => true

theorem next_cases (filter : Option (List Bpf.Insn)) (cs : List (Except Error PacketRef)) :
    (next filter cs = (.ok none, []) ∧ cs.filter (kept filter) = []) ∨
    (∃ e left, next filter cs = (.error e, left) ∧ left.length < cs.length ∧
      cs.filter (kept filter) = .error e :: left.filter (kept filter)) ∨
    ∃ p left, next filter cs = (.ok (some p), left) ∧ left.length < cs.length ∧
      cs.filter (kept filter) = .ok p :: left.filter (kept filter) := by
  induction cs with
  | nil => exact .inl ⟨rfl, rfl⟩
  | cons c cs ih =>
    cases c with
    | error e => exact .inr (.inl ⟨e, cs, rfl, Nat.lt_succ_self _, rfl⟩)
    | ok p =>
      by_cases hp : passes filter p.data = true
      · refine .inr (.inr ⟨p, cs, ?_, Nat.lt_succ_self _, List.filter_cons_of_pos hp⟩)
        rw [next, if_pos hp]
      · have hskip : (Except.ok p :: cs).filter (kept filter) = cs.filter (kept filter) :=
          List.filter_cons_of_neg hp
        rw [next, if_neg hp, hskip]
        rcases ih with ih | ⟨e, left, hn, hl, hf⟩ | ⟨q, left, hn, hl, hf⟩
        · exact .inl ih
        · exact .inr (.inl ⟨e, left, hn, Nat.lt_succ_of_lt hl, hf⟩)
        · exact .inr (.inr ⟨q, left, hn, Nat.lt_succ_of_lt hl, hf⟩)

theorem drain_eq {fuel : Nat} {cap : FileCapture} (h : cap.rest.length < fuel) :
    drain fuel cap = cap.rest.filter (kept cap.filter) := by
  induction fuel generalizing cap with
  | zero => omega
  | succ fuel ih =>
    obtain ⟨hres, hleft, hfilter⟩ := cap.nextPacket_eq
    obtain ⟨r, cap', hcall⟩ : ∃ r cap', cap.nextPacket = (r, cap') := ⟨_, _, rfl⟩
    rw [hcall] at hres hleft hfilter
    simp only [drain, hcall]
    rcases next_cases cap.filter cap.rest with ⟨hn, hf⟩ | ⟨e, left, hn, hl, hf⟩ |
      ⟨p, left, hn, hl, hf⟩
    · rw [hn] at hres
      simp only at hres
      rw [hres, hf]
    · rw [hn] at hres hleft
      simp only at hres hleft hfilter
      rw [hres, hf, ← hleft, ← hfilter]
      simp only
      rw [ih (by rw [hleft]; omega)]
    · rw [hn] at hres hleft
      simp only at hres hleft hfilter
      rw [hres, hf, ← hleft, ← hfilter]
      simp only
      rw [ih (by rw [hleft]; omega)]

/-- The packets a caller sees who calls up to the end of the file. -/
def yielded (cap : FileCapture) : List PacketRef :=
  (drain (cap.remaining + 1) cap).filterMap Except.toOption

theorem yielded_eq (cap : FileCapture) :
    cap.yielded =
      (cap.rest.filterMap Except.toOption).filter fun p => passes cap.filter p.data := by
  unfold yielded
  rw [drain_eq (Nat.lt_succ_of_le cap.rest_length)]
  induction cap.rest with
  | nil => rfl
  | cons c cs ih =>
    cases c with
    | error e => exact ih
    | ok p =>
      by_cases hp : passes cap.filter p.data = true
      · rw [List.filter_cons_of_pos (show kept cap.filter (.ok p) = true from hp)]
        simp only [List.filterMap_cons, Except.toOption, ih, List.filter_cons, hp, if_true]
      · rw [List.filter_cons_of_neg (show ¬ kept cap.filter (.ok p) = true from hp)]
        simp only [List.filterMap_cons, Except.toOption, ih, List.filter_cons, hp]
        rfl

end FileCapture

end Fetch

end PktBaffle.Pkttap.File
