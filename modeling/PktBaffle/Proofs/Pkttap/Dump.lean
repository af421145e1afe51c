import PktBaffle.Pkttap.Dump

namespace PktBaffle.Pkttap
open Classic (LinkType)

section Effects

variable {α β : Type} {m : Eff α} {k : α → Eff β} {fs fs' : FileSystem}

theorem eff_bind_ok {a : α} (h : m fs = (.ok a, fs')) : (m >>= k) fs = k a fs' := by
  simp only [bind, ExceptT.bind, ExceptT.mk, StateT.bind, h]
  rfl

theorem eff_bind_error {e : Error} (h : m fs = (.error e, fs')) :
    (m >>= k) fs = (.error e, fs') := by
  simp only [bind, ExceptT.bind, ExceptT.mk, StateT.bind, h]
  rfl

/-- A write of the library fails, if it does, with an error of the library. -/
theorem mapPcap_cases (write : FileSystem → Except PcapError Unit × FileSystem)
    (fs : FileSystem) : (∃ fs', mapPcap write fs = (.ok (), fs')) ∨
      ∃ e fs', mapPcap write fs = (.error (.pcap e), fs') := by
  unfold mapPcap
  cases h : write fs with
  | mk r fs' =>
    cases r with
    | ok u => exact .inl ⟨fs', rfl⟩
    | error e => exact .inr ⟨e, fs', rfl⟩

end Effects

/-- The extension is one of the two, in any letter case. -/
def DumpBuilder.Supported (b : DumpBuilder) : Prop := b.ext = "pcap" ∨ b.ext = "pcapng"

/-- If `open` refuses the builder, for want of a link type or for the extension, every file
is as it was. -/
def LeavesFilesAlone (lib : PcapFile) (b : DumpBuilder) (fs : FileSystem) : Prop :=
  ∀ message fs', b.open_ lib fs = (.error (.platform message), fs') → fs' = fs

section Open

variable {lib : PcapFile} {b : DumpBuilder} {fs : FileSystem}

theorem open_noLink (h : b.linkType = none) : b.open_ lib fs = (.error (.platform
    "Dump::open requires a link type — call .link_type() on the builder"), fs) := by
  unfold DumpBuilder.open_
  rw [h]
  rfl

theorem open_refused {lt : LinkType} {e : IoError} (h : b.linkType = some lt)
    (hc : fs.locate b.path = .error e) : b.open_ lib fs = (.error (.ofIo e), fs) := by
  have hcreate : create b.path fs = (.error (.ofIo e), fs) := by
    rw [create, hc]
  unfold DumpBuilder.open_
  rw [h]
  exact (eff_bind_ok rfl).trans (eff_bind_error hcreate)

/-- A supported extension ends in a dump or in an error of the library. -/
theorem open_supported {lt : LinkType} {file : Nat} (h : b.linkType = some lt)
    (hc : fs.locate b.path = .ok file) (hs : b.Supported) (message : String) (fs' : FileSystem) :
    b.open_ lib fs ≠ (.error (.platform message), fs') := by
  intro hopen
  have hcreate : create b.path fs =
      (.ok file, { fs with content := Function.update fs.content file (some []) }) := by
    rw [create, hc]
  unfold DumpBuilder.open_ at hopen
  rw [h] at hopen
  replace hopen := (eff_bind_ok rfl).symm.trans hopen
  replace hopen := (eff_bind_ok hcreate).symm.trans hopen
  by_cases hp : b.ext = "pcap"
  · rw [if_pos hp] at hopen
    rcases mapPcap_cases (lib.withHeader file (linkTypeToDatalink lt)) _ with
      ⟨fs₁, h₁⟩ | ⟨e, fs₁, h₁⟩
    · cases (eff_bind_ok h₁).symm.trans hopen
    · cases (eff_bind_error h₁).symm.trans hopen
  · rw [if_neg hp, if_pos (hs.resolve_left hp)] at hopen
    rcases mapPcap_cases (lib.newPcapNg file) _ with ⟨fs₁, h₁⟩ | ⟨e, fs₁, h₁⟩
    · replace hopen := (eff_bind_ok h₁).symm.trans hopen
      rcases mapPcap_cases (lib.writeInterface file (linkTypeToDatalink lt) 65535) fs₁ with
        ⟨fs₂, h₂⟩ | ⟨e, fs₂, h₂⟩
      · cases (eff_bind_ok h₂).symm.trans hopen
      · cases (eff_bind_error h₂).symm.trans hopen
    · cases (eff_bind_error h₁).symm.trans hopen

/-- Any other extension is refused when the file has been emptied already. -/
theorem open_unsupported {lt : LinkType} {file : Nat} (h : b.linkType = some lt)
    (hc : fs.locate b.path = .ok file) (hs : ¬ b.Supported) : b.open_ lib fs =
      (.error (.platform ("unknown extension '." ++ b.ext ++ "': Dump requires .pcap or .pcapng")),
        { fs with content := Function.update fs.content file (some []) }) := by
  have hcreate : create b.path fs =
      (.ok file, { fs with content := Function.update fs.content file (some []) }) := by
    rw [create, hc]
  obtain ⟨h₁, h₂⟩ := not_or.mp hs
  unfold DumpBuilder.open_
  rw [h]
  refine (eff_bind_ok rfl).trans ((eff_bind_ok hcreate).trans ?_)
  rw [if_neg h₁, if_neg h₂]
  rfl

/-- A refused `open` leaves the files alone exactly if it is refused for the link type, or
nothing is there to lose: the file cannot be opened or is empty. -/
theorem open_leavesFilesAlone_iff (lib : PcapFile) (b : DumpBuilder) (fs : FileSystem) :
    LeavesFilesAlone lib b fs ↔ b.linkType = none ∨ b.Supported ∨
      (∃ e, fs.locate b.path = .error e) ∨
      ∃ file, fs.locate b.path = .ok file ∧ fs.content file = some [] := by
  unfold LeavesFilesAlone
  cases hl : b.linkType with
  | none =>
    refine ⟨fun _ => .inl rfl, fun _ message fs' h => ?_⟩
    rw [open_noLink hl] at h
    exact (Prod.mk.inj h).2.symm
  | some lt =>
    cases hc : fs.locate b.path with
    | error e =>
      refine ⟨fun _ => .inr (.inr (.inl ⟨e, rfl⟩)), fun _ message fs' h => ?_⟩
      rw [open_refused hl hc] at h
      exact absurd (Except.error.inj (Prod.mk.inj h).1) (Error.ofIo_ne_platform e message)
    | ok file =>
      by_cases hs : b.Supported
      · exact ⟨fun _ => .inr (.inl hs),
          fun _ message fs' h => absurd h (open_supported hl hc hs message fs')⟩
      · constructor
        · intro h
          have hfs := h _ _ (open_unsupported hl hc hs)
          refine .inr (.inr (.inr ⟨file, rfl, ?_⟩))
          rw [← hfs]
          exact Function.update_self file (some []) fs.content
        · rintro (h | h | ⟨e, h⟩ | ⟨i, h, hempty⟩) message fs' hopen
          · cases h
          · exact absurd h hs
          · cases h
          · cases h
            rw [open_unsupported hl hc hs, ← hempty, Function.update_eq_self] at hopen
            exact (Prod.mk.inj hopen).2.symm

end Open

/-- A file `n.txt` with three bytes in it, and nothing else. -/
def noteSystem : FileSystem where
  locate path := if path = [0x6e, 0x2e, 0x74, 0x78, 0x74] then .ok 0 else .error (.other 2)
  content file := if file = 0 then some [1, 2, 3] else none

/-- A library whose writers succeed and write nothing. -/
def silentLib : PcapFile where
  withHeader _ _ fs := (.ok (), fs)
  newPcapNg _ fs := (.ok (), fs)
  writeInterface _ _ _ fs := (.ok (), fs)

/-- `open` reports the extension of `n.txt` and has emptied the file. -/
theorem open_empties_note :
    let b : DumpBuilder := ⟨[0x6e, 0x2e, 0x74, 0x78, 0x74], some .ethernet⟩
    ∃ fs', b.open_ silentLib noteSystem = (.error (.platform
        "unknown extension '.txt': Dump requires .pcap or .pcapng"), fs') ∧
      noteSystem.content 0 = some [1, 2, 3] ∧ fs'.content 0 = some [] := by
  intro b
  have hext : b.ext = "txt" := by decide +kernel
  have hs : ¬ b.Supported := by
    unfold DumpBuilder.Supported
    rw [hext]
    decide
  have h : b.open_ silentLib noteSystem = _ :=
    open_unsupported rfl (show noteSystem.locate b.path = .ok 0 from rfl) hs
  rw [hext] at h
  exact ⟨_, h, rfl, by simp⟩

end PktBaffle.Pkttap
