import PktBaffle.Proofs.Pkttap.File

namespace PktBaffle.Pkttap.File
open Classic (LinkType)

/-- The packets of a pcapng file as the reader sees them. -/
def refs (idbTypes : List LinkType) (blocks : Stream Block) : List PacketRef :=
  (ngContents idbTypes blocks).filterMap Except.toOption

theorem refs_cons_ok (idbTypes : List LinkType) (b : Block) (rest : Stream Block) :
    refs idbTypes (.ok b :: rest) =
      (b.found idbTypes).toList ++ refs (b.table idbTypes) rest := by
  unfold refs
  rw [ngContents, List.filterMap_append]
  cases b.found idbTypes <;> rfl

/-- At `path` lies a pcapng file of these blocks. -/
structure HoldsPcapNg (lib : Readers) (path : Path) (blocks : Stream Block) : Prop where
  reads : ∃ file buf, lib.openFile path = .ok file ∧ lib.fillBuf file = .ok buf ∧
    buf.take 4 = FileCapture.sectionMagic ∧ lib.pcapNg file = .ok blocks

/-- At `path` lies a pcap file of these records. -/
structure HoldsPcap (lib : Readers) (path : Path) (datalink : DataLink)
    (records : Stream PcapPacket) : Prop where
  reads : ∃ file buf, lib.openFile path = .ok file ∧ lib.fillBuf file = .ok buf ∧
    4 ≤ buf.length ∧ buf.take 4 ≠ FileCapture.sectionMagic ∧
    lib.pcap file = .ok (datalink, records)

section Opened

variable {lib : Readers} {path : Path} {blocks : Stream Block} {spec : Option FilterSpec}
variable {datalink : DataLink} {records : Stream PcapPacket}

theorem HoldsPcapNg.open_eq (h : HoldsPcapNg lib path blocks) :
    FileCapture.open_ lib path spec = (compileFilter spec .ethernet).map fun compiled =>
      ⟨.pcapNg blocks, compiled, .ethernet, [], []⟩ := by
  obtain ⟨file, buf, hopen, hbuf, hmagic, hng⟩ := h.reads
  have hlen : ¬ buf.length < 4 := by
    have hfour := congrArg List.length hmagic
    rw [List.length_take] at hfour
    change min 4 buf.length = 4 at hfour
    omega
  unfold FileCapture.open_
  simp only [hopen, hbuf, hng, hmagic, hlen, Except.mapError, bind, Except.bind, if_true, if_false]
  cases compileFilter spec .ethernet <;> rfl

theorem HoldsPcap.open_eq (h : HoldsPcap lib path datalink records) :
    FileCapture.open_ lib path spec =
      (compileFilter spec (datalinkToLinkType datalink)).map fun compiled =>
        ⟨.pcap records, compiled, datalinkToLinkType datalink, [], []⟩ := by
  obtain ⟨file, buf, hopen, hbuf, hlen, hmagic, hpcap⟩ := h.reads
  unfold FileCapture.open_
  simp only [hopen, hbuf, hpcap, hmagic, Nat.not_lt.mpr hlen, Except.mapError, bind, Except.bind,
    if_false]
  cases compileFilter spec (datalinkToLinkType datalink) <;> rfl

/-- What a pcapng file yields: the packets the filter lets through. -/
theorem HoldsPcapNg.yielded_eq {cap : FileCapture} (h : HoldsPcapNg lib path blocks)
    (ho : FileCapture.open_ lib path spec = .ok cap) :
    cap.yielded = (refs [] blocks).filter fun p => passes cap.filter p.data := by
  rw [h.open_eq] at ho
  cases hc : compileFilter spec .ethernet with
  | error e =>
    rw [hc] at ho
    cases ho
  | ok compiled =>
    rw [hc] at ho
    cases ho
    exact FileCapture.yielded_eq _

end Opened

/-- The interface a packet block names. -/
def Block.interface : Block → Option Nat
  | .enhancedPacket interfaceId .. => some interfaceId.toNat
  | .simplePacket .. => some 0
  | .packet interfaceId .. => some interfaceId.toNat
  | _ => none

def Block.isSection : Block → Bool
  | .sectionHeader => true
  | _ => false

/-- What has been read of the last section. -/
def lastSection (front : Stream Block) : Stream Block :=
  (front.reverse.takeWhile fun r => !(r.toOption.any Block.isSection)).reverse

/-- The link type of an interface description. -/
def Block.described : Block → Option LinkType
  | .interfaceDescription linktype => some (datalinkToLinkType linktype)
  | _ => none

/-- The link types of the interface descriptions, in order. -/
def types (blocks : Stream Block) : List LinkType :=
  blocks.filterMap fun r => r.toOption.bind Block.described

/-- The link type of interface `i` of the section that is being read behind `front`. -/
def sectionType (front : Stream Block) (i : Nat) : Option LinkType :=
  (types (lastSection front))[i]?

/-- A packet as the file stores it, with the link type of its own interface. -/
structure Stored where
  data : List UInt8
  origLen : Nat
  own : Option LinkType

/-- The stored packet of a block behind `front`. -/
def Block.stored (front : Stream Block) : Block → Option Stored
  | .enhancedPacket interfaceId _ originalLen data =>
    some ⟨data, originalLen, sectionType front interfaceId.toNat⟩
  | .simplePacket originalLen data => some ⟨data, originalLen, sectionType front 0⟩
  | .packet interfaceId _ originalLen data =>
    some ⟨data, originalLen, sectionType front interfaceId.toNat⟩
  | _ => none

/-- The packets stored in `blocks`, behind `front`. -/
def storedFrom (front : Stream Block) : Stream Block → List Stored
  | [] => []
  | .error e :: rest => storedFrom (front ++ [.error e]) rest
  | .ok b :: rest => (b.stored front).toList ++ storedFrom (front ++ [.ok b]) rest

/-- The packet is the stored one and carries the link type of its interface. -/
structure Carries (p : PacketRef) (s : Stored) : Prop where
  data : p.data = s.data
  origLen : p.origLen = s.origLen
  linkType : ∀ L, s.own = some L → p.linkType = L

/-- The file's `i`-th interface description has the link type of the section's `i`-th, for the
interface that `b` names. -/
def Agrees (front : Stream Block) (b : Block) : Prop :=
  ∀ i L, b.interface = some i → sectionType front i = some L → (types front)[i]? = some L

section Tables

variable {front blocks : Stream Block} {b : Block}

@[simp] theorem types_append (front back : Stream Block) :
    types (front ++ back) = types front ++ types back := List.filterMap_append

theorem table_types (front : Stream Block) (b : Block) :
    b.table (types front) = types (front ++ [.ok b]) := by
  rw [types_append]
  cases b <;> simp [Block.table, types, Except.toOption, Block.described]

theorem types_error (front : Stream Block) (e : PcapError) :
    types (front ++ [.error e]) = types front := by
  rw [types_append]
  exact List.append_nil _

theorem types_lastSection (front : Stream Block) :
    ∃ before, types front = before ++ types (lastSection front) := by
  refine ⟨types (front.reverse.dropWhile fun r => !(r.toOption.any Block.isSection)).reverse, ?_⟩
  rw [← types_append, lastSection, ← List.reverse_append, List.takeWhile_append_dropWhile,
    List.reverse_reverse]

/-- The file's table has an entry wherever the section's has one. -/
theorem types_lookup {i : Nat} {L : LinkType} (h : sectionType front i = some L) :
    ∃ L', (types front)[i]? = some L' := by
  obtain ⟨before, heq⟩ := types_lastSection front
  obtain ⟨hi, -⟩ := List.getElem?_eq_some_iff.mp h
  have hlen : i < (types front).length := by
    rw [heq, List.length_append]
    omega
  exact ⟨_, List.getElem?_eq_getElem hlen⟩

theorem reported_iff (front : Stream Block) (i : Nat) :
    (∀ L, sectionType front i = some L → interfaceType (types front) i = L) ↔
      ∀ L, sectionType front i = some L → (types front)[i]? = some L := by
  constructor
  · intro h L hL
    obtain ⟨L', hL'⟩ := types_lookup hL
    have heq := h L hL
    rw [interfaceType, hL'] at heq
    rw [hL', ← heq]
    rfl
  · intro h L hL
    rw [interfaceType, h L hL]
    rfl

/-- What the reader makes of a block carries its link type exactly when the tables agree. -/
theorem carries_iff {p : PacketRef} {s : Stored} (hp : b.found (types front) = some p)
    (hs : b.stored front = some s) : Carries p s ↔ Agrees front b := by
  have hone : ∀ (i : Nat), b.interface = some i → (Agrees front b ↔
      ∀ L, sectionType front i = some L → (types front)[i]? = some L) := by
    intro i hi
    constructor
    · intro h L
      exact h i L hi
    · intro h j L hj
      rw [hi] at hj
      cases hj
      exact h L
  cases b with
  | enhancedPacket id ts n data =>
    cases hp
    cases hs
    rw [hone id.toNat rfl, ← reported_iff]
    exact ⟨fun h => h.linkType, fun h => ⟨rfl, rfl, h⟩⟩
  | simplePacket n data =>
    cases hp
    cases hs
    rw [hone 0 rfl, ← reported_iff]
    exact ⟨fun h => h.linkType, fun h => ⟨rfl, rfl, h⟩⟩
  | packet id ts n data =>
    cases hp
    cases hs
    rw [hone id.toNat rfl, ← reported_iff]
    exact ⟨fun h => h.linkType, fun h => ⟨rfl, rfl, h⟩⟩
  | sectionHeader => cases hp
  | interfaceDescription d => cases hp
  | other => cases hp

theorem found_or_agrees (front : Stream Block) (b : Block) :
    (∃ p s, b.found (types front) = some p ∧ b.stored front = some s ∧ p.data = s.data) ∨
      b.found (types front) = none ∧ b.stored front = none ∧ Agrees front b := by
  cases b with
  | enhancedPacket id ts n data => exact .inl ⟨_, _, rfl, rfl, rfl⟩
  | simplePacket n data => exact .inl ⟨_, _, rfl, rfl, rfl⟩
  | packet id ts n data => exact .inl ⟨_, _, rfl, rfl, rfl⟩
  | sectionHeader => exact .inr ⟨rfl, rfl, fun i L h => by cases h⟩
  | interfaceDescription d => exact .inr ⟨rfl, rfl, fun i L h => by cases h⟩
  | other => exact .inr ⟨rfl, rfl, fun i L h => by cases h⟩

/-- What holds wherever a block stands in a file: at its front, and in the rest. -/
theorem places_cons {P : Stream Block → Block → Prop} {r : Except PcapError Block}
    {rest : Stream Block} :
    (∀ before b after, r :: rest = before ++ .ok b :: after → P before b) ↔
      (∀ b, r = .ok b → P [] b) ∧
        ∀ before b after, rest = before ++ .ok b :: after → P (r :: before) b := by
  constructor
  · intro h
    constructor
    · rintro b rfl
      exact h [] b rest rfl
    · rintro before b after rfl
      exact h (r :: before) b after rfl
  · rintro ⟨hfirst, hrest⟩ before b after heq
    cases before with
    | nil => exact hfirst b (List.cons.inj heq).1
    | cons c before =>
      obtain ⟨rfl, htail⟩ := List.cons.inj heq
      exact hrest before b after htail

/-- Every packet of `blocks` carries its link type exactly when the tables agree wherever a packet
names an interface. -/
theorem forall_carries_iff (front blocks : Stream Block) :
    List.Forall₂ Carries (refs (types front) blocks) (storedFrom front blocks) ↔
      ∀ before b after, blocks = before ++ .ok b :: after → Agrees (front ++ before) b := by
  induction blocks generalizing front with
  | nil =>
    refine ⟨fun _ before b after h => ?_, fun _ => .nil⟩
    cases before <;> cases h
  | cons r rest ih =>
    have hrest := ih (front ++ [r])
    simp only [List.append_assoc, List.singleton_append] at hrest
    rw [places_cons, List.append_nil, ← hrest]
    cases r with
    | error e =>
      rw [types_error]
      constructor
      · intro h
        refine ⟨?_, h⟩
        intro b hb
        cases hb
      · exact And.right
    | ok b =>
      rw [← table_types, refs_cons_ok, storedFrom]
      rcases found_or_agrees front b with ⟨p, s, hp, hs, -⟩ | ⟨hp, hs, hagree⟩
      · rw [hp, hs]
        have hc := carries_iff hp hs
        constructor
        · intro h
          obtain ⟨hfirst, hrest⟩ := List.forall₂_cons.mp h
          refine ⟨fun b' hb' => ?_, hrest⟩
          cases hb'
          exact hc.mp hfirst
        · intro h
          exact .cons (hc.mpr (h.1 b rfl)) h.2
      · rw [hp, hs]
        constructor
        · intro h
          refine ⟨fun b' hb' => ?_, h⟩
          cases hb'
          exact hagree
        · exact fun h => h.2

end Tables

/-- Every packet that the file yields carries the link type of the interface its block names in
its own section. -/
def SectionsTyped (blocks : Stream Block) : Prop :=
  ∀ lib path spec cap, HoldsPcapNg lib path blocks →
    FileCapture.open_ lib path spec = .ok cap →
      List.Forall₂ Carries cap.yielded
        ((storedFrom [] blocks).filter fun s => passes cap.filter s.data)

/-- A file system with one pcapng file and one pcap file. -/
def twoFiles (blocks : Stream Block) (datalink : DataLink) (records : Stream PcapPacket) :
    Readers where
  Handle := Bool
  openFile path := .ok path.isEmpty
  fillBuf ng := .ok (if ng then FileCapture.sectionMagic else [0xd4, 0xc3, 0xb2, 0xa1])
  pcap _ := .ok (datalink, records)
  pcapNg _ := .ok blocks

theorem twoFiles_pcapNg (blocks : Stream Block) (datalink : DataLink)
    (records : Stream PcapPacket) : HoldsPcapNg (twoFiles blocks datalink records) [] blocks :=
  ⟨true, _, rfl, rfl, rfl, rfl⟩

theorem twoFiles_pcap (blocks : Stream Block) (datalink : DataLink)
    (records : Stream PcapPacket) :
    HoldsPcap (twoFiles blocks datalink records) [0] datalink records :=
  ⟨false, _, rfl, rfl, by decide, by decide, rfl⟩

/-- The table of link types is never cleared: a file's packets are typed right exactly when, for
every interface a packet names, the file's description of that number has the link type of the
section's own. -/
theorem sections_typed_iff (blocks : Stream Block) : SectionsTyped blocks ↔
    ∀ before b after, blocks = before ++ .ok b :: after → Agrees before b := by
  have hall := forall_carries_iff [] blocks
  simp only [List.nil_append] at hall
  rw [← hall]
  constructor
  · intro h
    have hng := twoFiles_pcapNg blocks .ethernet []
    have hopen := @HoldsPcapNg.open_eq _ _ _ none hng
    have hy := h _ _ _ _ hng hopen
    rw [hng.yielded_eq hopen] at hy
    simpa only [passes, List.filter_true, types, List.filterMap_nil] using hy
  · intro h lib path spec cap hng hopen
    rw [hng.yielded_eq hopen]
    refine List.rel_filter ?_ h
    intro p s hc
    simp only [hc.data]

/-- An Ethernet section and a raw IP one, each with one interface; the packet is in the second. -/
def twoSections : Stream Block :=
  [.ok .sectionHeader, .ok (.interfaceDescription .ethernet), .ok .sectionHeader,
    .ok (.interfaceDescription .raw),
    .ok (.enhancedPacket 0 .zero 20
      [0x45, 0, 0, 20, 0, 0, 0, 0, 64, 17, 0, 0, 10, 0, 0, 1, 10, 0, 0, 2])]

theorem two_sections_mistyped : ¬ SectionsTyped twoSections := by
  intro h
  have hng := twoFiles_pcapNg twoSections .ethernet []
  have hopen := @HoldsPcapNg.open_eq _ _ _ none hng
  have hy := h _ _ _ _ hng hopen
  rw [hng.yielded_eq hopen] at hy
  obtain ⟨hfirst, -⟩ := List.forall₂_cons.mp hy
  exact absurd (hfirst.linkType .rawIp rfl) (by decide)

end PktBaffle.Pkttap.File
