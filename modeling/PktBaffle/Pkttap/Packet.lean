import PktBaffle.Codegen
import PktBaffle.Pkttap.Error

namespace PktBaffle.Pkttap
open Classic (LinkType)

/-- A captured packet. The timestamp counts nanoseconds since the Unix epoch. -/
structure PacketRef where
  data : List UInt8
  timestamp : Nat
  origLen : Nat
  linkType : LinkType
  deriving DecidableEq, Repr

/-- `UNIX_EPOCH + Duration::new(ts_sec, ts_nsec)`: the seconds of a `Duration` are a `u64`, those
of a `SystemTime` an `i64`. -/
def systemTime (tsSec tsNsec : Nat) : Except Error Nat :=
  if 2 ^ 64 ≤ tsSec + tsNsec / 10 ^ 9 then .error (.panic "overflow in Duration::new")
  else if 2 ^ 63 ≤ tsSec + tsNsec / 10 ^ 9 then
    .error (.panic "overflow when adding duration to instant")
  else .ok (tsSec * 10 ^ 9 + tsNsec)

def PacketRef.new (data : List UInt8) (tsSec tsNsec origLen : Nat) (linkType : LinkType) :
    Except Error PacketRef := do
  return ⟨data, ← systemTime tsSec tsNsec, origLen, linkType⟩

theorem PacketRef.new_ok {data : List UInt8} {s n origLen : Nat} {linkType : LinkType}
    {p : PacketRef} (h : PacketRef.new data s n origLen linkType = .ok p) :
    p.data = data ∧ p.origLen = origLen := by
  obtain ⟨t, -, h⟩ := bind_ok h
  cases h
  exact ⟨rfl, rfl⟩

end PktBaffle.Pkttap
