import PktBaffle.Proofs.Pkttap.Sections

namespace PktBaffle.Pkttap.File
open Classic (LinkType)

/-- The program of the filter for a link type accepts the bytes. -/
def accepts (s : String) (link : LinkType) (data : List UInt8) : Bool :=
  match Lib.compile s link .classic with
  | .ok (.classic p) => Vm.run p data
  | _ => false

/-- What a caller sees of a file, from `open` to its end. -/
def capture (lib : Readers) (path : Path) (spec : Option FilterSpec) : List PacketRef :=
  match FileCapture.open_ lib path spec with
  | .ok cap => cap.yielded
  | .error _ => []

/-- The packets are those of the file whose own program accepts them. -/
def FiltersByOwnType (lib : Readers) (path : Path) (blocks : Stream Block) : Prop :=
  ∀ s, capture lib path (some (.string s)) =
    (refs [] blocks).filter fun p => accepts s p.linkType p.data

/-- A block without the contents of its packet. -/
def Block.layout : Block → Block
  | .enhancedPacket interfaceId .. =>
    .enhancedPacket interfaceId .zero 0 []
  | .simplePacket .. => .simplePacket 0 []
  | .packet interfaceId .. => .packet interfaceId 0 0 []
  | b => b

/-- The block with other bytes in its packet. -/
def Block.refill (data : List UInt8) : Block → Block
  | .enhancedPacket interfaceId ts .. => .enhancedPacket interfaceId ts data.length data
  | .simplePacket .. => .simplePacket data.length data
  | .packet interfaceId ts .. => .packet interfaceId ts data.length data
  | b => b

/-- The files are made of the same blocks but for what their packets hold. -/
def SameLayout (blocks blocks' : Stream Block) : Prop :=
  blocks.map (Except.map Block.layout) = blocks'.map (Except.map Block.layout)

/-- The records of a pcap file as a pcapng file with one interface. -/
def asPcapNg (datalink : DataLink) (records : Stream PcapPacket) : Stream Block :=
  .ok (.interfaceDescription datalink) ::
    records.map (Except.map fun p => .enhancedPacket 0 p.timestamp p.origLen p.data)

section Filters

variable {lib : Readers} {path : Path} {blocks : Stream Block} {datalink : DataLink}
  {records : Stream PcapPacket} {s : String}

theorem compileFilter_string (s : String) (link : LinkType) :
    (∃ p, compileFilter (some (.string s)) link = .ok (some p) ∧
      ∀ data, accepts s link data = Vm.run p data) ∨
    (∃ e, compileFilter (some (.string s)) link = .error e) ∧
      ∀ data, accepts s link data = false := by
  cases hc : Lib.compile s link .classic with
  | error e =>
    simp only [compileFilter, accepts, hc, Except.mapError, bind, Except.bind]
    exact .inr ⟨⟨_, rfl⟩, fun _ => trivial⟩
  | ok prog =>
    cases prog with
    | classic p =>
      simp only [compileFilter, accepts, hc, Except.mapError, bind, Except.bind]
      exact .inl ⟨p, rfl, fun _ => rfl⟩
    | extended p =>
      simp only [compileFilter, accepts, hc, Except.mapError, bind, Except.bind]
      exact .inr ⟨⟨_, rfl⟩, fun _ => trivial⟩

theorem HoldsPcapNg.capture_eq (h : HoldsPcapNg lib path blocks) (s : String) :
    capture lib path (some (.string s)) =
      (refs [] blocks).filter fun p => accepts s .ethernet p.data := by
  unfold capture
  rw [h.open_eq]
  rcases compileFilter_string s .ethernet with ⟨p, hc, hrun⟩ | ⟨⟨e, hc⟩, hno⟩
  · rw [hc]
    simp only [Except.map, hrun]
    exact FileCapture.yielded_eq _
  · rw [hc]
    simp only [hno, List.filter_false]
    rfl

theorem HoldsPcap.capture_eq (h : HoldsPcap lib path datalink records) (s : String) :
    capture lib path (some (.string s)) =
      ((pcapContents (datalinkToLinkType datalink) records).filterMap Except.toOption).filter
        fun p => accepts s (datalinkToLinkType datalink) p.data := by
  unfold capture
  rw [h.open_eq]
  rcases compileFilter_string s (datalinkToLinkType datalink) with
    ⟨p, hc, hrun⟩ | ⟨⟨e, hc⟩, hno⟩
  · rw [hc]
    simp only [Except.map, hrun]
    exact FileCapture.yielded_eq _
  · rw [hc]
    simp only [hno, List.filter_false]
    rfl

/-- A pcapng file with one interface holds the packets of the pcap file. -/
theorem refs_asPcapNg (datalink : DataLink) (records : Stream PcapPacket) :
    refs [] (asPcapNg datalink records) =
      (pcapContents (datalinkToLinkType datalink) records).filterMap Except.toOption := by
  have htail : ∀ records : Stream PcapPacket,
      ngContents [datalinkToLinkType datalink] (records.map
        (Except.map fun p => .enhancedPacket 0 p.timestamp p.origLen p.data)) =
      pcapContents (datalinkToLinkType datalink) records := by
    intro records
    induction records with
    | nil => rfl
    | cons r records ih =>
      cases r with
      | error e => exact congrArg _ ih
      | ok p => exact congrArg _ ih
  exact congrArg _ (htail records)

theorem layout_refill (data : List UInt8) (b : Block) : (b.refill data).layout = b.layout := by
  cases b <;> rfl

theorem sameLayout_refill (data : List UInt8) (blocks : Stream Block) :
    SameLayout blocks (blocks.map (Except.map (Block.refill data))) := by
  unfold SameLayout
  rw [List.map_map]
  apply List.map_congr_left
  intro r _
  cases r with
  | error e => rfl
  | ok b => exact congrArg Except.ok (layout_refill data b).symm

/-- The link types are a matter of the layout. -/
theorem linkTypes_layout (idbTypes : List LinkType) (blocks : Stream Block) :
    (refs idbTypes blocks).map PacketRef.linkType =
      (refs idbTypes (blocks.map (Except.map Block.layout))).map PacketRef.linkType := by
  induction blocks generalizing idbTypes with
  | nil => rfl
  | cons r rest ih =>
    cases r with
    | error e => exact ih idbTypes
    | ok b =>
      change _ = (refs idbTypes (.ok b.layout :: rest.map (Except.map Block.layout))).map _
      rw [refs_cons_ok, refs_cons_ok, List.map_append, List.map_append, ih]
      cases b <;> rfl

theorem SameLayout.linkTypes {blocks' : Stream Block} (h : SameLayout blocks blocks') :
    (refs [] blocks).map PacketRef.linkType = (refs [] blocks').map PacketRef.linkType := by
  rw [linkTypes_layout, linkTypes_layout [] blocks', h]

theorem refill_data (data : List UInt8) (idbTypes : List LinkType) (blocks : Stream Block)
    {p : PacketRef} (hp : p ∈ refs idbTypes (blocks.map (Except.map (Block.refill data)))) :
    p.data = data := by
  induction blocks generalizing idbTypes with
  | nil => cases hp
  | cons r rest ih =>
    cases r with
    | error e => exact ih idbTypes hp
    | ok b =>
      change p ∈ refs idbTypes (.ok (b.refill data) :: rest.map _) at hp
      rw [refs_cons_ok, List.mem_append] at hp
      rcases hp with hp | hp
      · cases b <;> simp [Block.refill, Block.found] at hp <;> rw [hp]
      · exact ih _ hp

end Filters

/-- Bytes that tell the program for Ethernet from the one for the link type. -/
def telling : LinkType → List UInt8
  | .linuxSll => [0, 0, 0, 0, 0, 0, 0, 0, 0, 0, 0, 0, 8, 0]
  | _ => []

/-- The filter `ip`, compiled for each link type, on the telling bytes of the other two. -/
theorem accepts_ip : accepts "ip" .ethernet (telling .linuxSll) = true ∧
    accepts "ip" .linuxSll (telling .linuxSll) = false ∧
    accepts "ip" .ethernet (telling .rawIp) = false ∧
    accepts "ip" .rawIp (telling .rawIp) = true := by
  decide +kernel

theorem telling_apart {L : LinkType} (h : L ≠ .ethernet) :
    accepts "ip" .ethernet (telling L) ≠ accepts "ip" L (telling L) := by
  obtain ⟨h₁, h₂, h₃, h₄⟩ := accepts_ip
  cases L with
  | ethernet => exact absurd rfl h
  | rawIp =>
    rw [h₃, h₄]
    decide
  | linuxSll =>
    rw [h₁, h₂]
    decide

/-- A record of the telling bytes. -/
def tellingRecord (datalink : DataLink) : PcapPacket :=
  ⟨.zero, 0, telling (datalinkToLinkType datalink)⟩

/-- Whatever the packets of the file hold, and whatever the filter, it yields those that the
program for their own link type accepts. -/
def Filtered (blocks : Stream Block) : Prop :=
  ∀ lib path blocks', SameLayout blocks blocks' → HoldsPcapNg lib path blocks' →
    FiltersByOwnType lib path blocks'

/-- The records of a pcap file of this link type and the same packets in a pcapng file with one
interface are filtered alike. -/
def FormatsAgree (datalink : DataLink) : Prop :=
  ∀ lib path path' records, HoldsPcap lib path datalink records →
    HoldsPcapNg lib path' (asPcapNg datalink records) →
      ∀ s, capture lib path (some (.string s)) = capture lib path' (some (.string s))

theorem filtered_iff (blocks : Stream Block) :
    Filtered blocks ↔ ∀ p ∈ refs [] blocks, p.linkType = .ethernet := by
  constructor
  · intro h p hp
    by_contra hL
    have hlayout := sameLayout_refill (telling p.linkType) blocks
    have hng := twoFiles_pcapNg
      (blocks.map (Except.map (Block.refill (telling p.linkType)))) .ethernet []
    have hy := h _ _ _ hlayout hng "ip"
    rw [hng.capture_eq] at hy
    have hmem : p.linkType ∈ (refs [] blocks).map PacketRef.linkType :=
      List.mem_map_of_mem hp
    rw [hlayout.linkTypes] at hmem
    obtain ⟨q, hq, hqL⟩ := List.mem_map.mp hmem
    have hdata := refill_data _ _ _ hq
    have hsame : accepts "ip" .ethernet q.data = accepts "ip" q.linkType q.data := by
      have hiff := congrArg (q ∈ ·) hy
      simpa only [List.mem_filter, hq, true_and, eq_iff_iff, Bool.coe_iff_coe] using hiff
    rw [hdata, hqL] at hsame
    exact telling_apart hL hsame
  · intro h lib path blocks' hlayout hng s
    rw [hng.capture_eq]
    apply List.filter_congr
    intro p hp
    have hmem : p.linkType ∈ (refs [] blocks).map PacketRef.linkType := by
      rw [hlayout.linkTypes]
      exact List.mem_map_of_mem hp
    obtain ⟨q, hq, hqL⟩ := List.mem_map.mp hmem
    rw [← hqL, h q hq]

theorem formatsAgree_iff (datalink : DataLink) :
    FormatsAgree datalink ↔ datalinkToLinkType datalink = .ethernet := by
  constructor
  · intro h
    by_contra hL
    have hy := h _ _ _ _ (twoFiles_pcap (asPcapNg datalink [.ok (tellingRecord datalink)]) _ _)
      (twoFiles_pcapNg _ datalink [.ok (tellingRecord datalink)]) "ip"
    rw [(twoFiles_pcap _ _ _).capture_eq, (twoFiles_pcapNg _ _ _).capture_eq,
      refs_asPcapNg] at hy
    have hiff := congrArg ((tellingRecord datalink).ref (datalinkToLinkType datalink) ∈ ·) hy
    have hmem : (tellingRecord datalink).ref (datalinkToLinkType datalink) ∈
        (pcapContents (datalinkToLinkType datalink)
          [.ok (tellingRecord datalink)]).filterMap Except.toOption := List.mem_singleton.mpr rfl
    simp only [List.mem_filter, hmem, true_and, eq_iff_iff, Bool.coe_iff_coe] at hiff
    exact telling_apart hL hiff.symm
  · intro h lib path path' records hpcap hng s
    rw [hpcap.capture_eq, hng.capture_eq, refs_asPcapNg, h]

/-- The filter of a pcapng file is compiled for Ethernet: it is the right one exactly when every
packet is reported as Ethernet. -/
theorem pcapng_filters_iff (blocks : Stream Block) (datalink : DataLink) :
    (Filtered blocks ↔ ∀ p ∈ refs [] blocks, p.linkType = .ethernet) ∧
      (FormatsAgree datalink ↔ datalinkToLinkType datalink = .ethernet) :=
  ⟨filtered_iff blocks, formatsAgree_iff datalink⟩

/-- An IPv4 packet on an interface without a link layer. -/
def rawIpFile : Stream Block :=
  [.ok (.interfaceDescription .raw),
    .ok (.enhancedPacket 0 .zero 20
      [0x45, 0, 0, 20, 0, 0, 0, 0, 64, 17, 0, 0, 10, 0, 0, 1, 10, 0, 0, 2])]

/-- The filter `ip` drops it: the Ethernet type is looked for in its source address. -/
theorem pcapng_filters_rawIp :
    ¬ FiltersByOwnType (twoFiles rawIpFile .raw []) [] rawIpFile := by
  intro h
  have hng := twoFiles_pcapNg rawIpFile .raw []
  have hy := h "ip"
  rw [hng.capture_eq] at hy
  revert hy
  decide +kernel

end PktBaffle.Pkttap.File
