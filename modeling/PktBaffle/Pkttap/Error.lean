import PktBaffle.Ast

namespace PktBaffle.Pkttap

/-- An error of the operating system, by what `kind` tells apart. -/
inductive IoError where
  | permissionDenied
  | interrupted
  | wouldBlock
  | other (code : Nat)
  deriving DecidableEq, Repr

/-- What the file format library reports. -/
structure PcapError where
  message : String
  deriving DecidableEq, Repr

/-- What a call can end with besides a result: the error the source returns, or a panic. -/
inductive Error where
  | io (e : IoError)
  | filter (e : PktBaffle.Error)
  | pcap (e : PcapError)
  | platform (message : String)
  | permissionDenied
  | wouldBlock
  | panic (message : String)
  deriving DecidableEq, Repr

/-- `From<std::io::Error>`. -/
def Error.ofIo : IoError → Error
  | .permissionDenied => .permissionDenied
  | e => .io e

theorem Error.ofIo_ne_platform (e : IoError) (message : String) :
    Error.ofIo e ≠ .platform message := by
  cases e <;> simp [Error.ofIo]

theorem bind_ok {α β : Type} {x : Except Error α} {f : α → Except Error β} {b : β}
    (h : (x >>= f) = .ok b) : ∃ a, x = .ok a ∧ f a = .ok b := by
  cases x with
  | error e => cases h
  | ok a => exact ⟨a, rfl, h⟩

theorem map_ok {α β : Type} {x : Except Error α} {f : α → β} {b : β} (h : f <$> x = .ok b) :
    ∃ a, x = .ok a ∧ f a = b := by
  cases x with
  | error e => cases h
  | ok a => exact ⟨a, rfl, Except.ok.inj h⟩

end PktBaffle.Pkttap
