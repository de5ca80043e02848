/-!
# Signals

A signal is the list of its listeners in the order in which they were connected. Each connection
has a slot of its own, so the same listener may be connected several times, and a slot can be taken
out without touching the others.
-/

namespace Recalc

/-- The identity of one connection; no two connections share one. -/
abbrev SlotId := Nat

/-- The connected listeners, oldest first. -/
structure Signal (β : Type) where
  /-- The slots, oldest first. -/
  slots : List (SlotId × β) := []

namespace Signal

variable {β : Type}

/-- The slots of the connected listeners, oldest first. -/
def ids (s : Signal β) : List SlotId := s.slots.map Prod.fst

/-- Number of connected listeners. -/
def size (s : Signal β) : Nat := s.slots.length

/-- Whether a slot is connected. -/
def contains (s : Signal β) (id : SlotId) : Bool := decide (id ∈ s.ids)

/-- Connect a listener after those already connected. -/
def attach (s : Signal β) (id : SlotId) (listener : β) : Signal β :=
  ⟨s.slots ++ [(id, listener)]⟩

/-- Take one slot out; the flag tells whether it was connected. -/
def detach (s : Signal β) (id : SlotId) : Signal β × Bool :=
  (⟨s.slots.filter (·.1 ≠ id)⟩, s.contains id)

/-- Keep the listeners that satisfy a test. -/
def keep (s : Signal β) (p : β → Bool) : Signal β := ⟨s.slots.filter fun slot => p slot.2⟩

/-- The signal as text. -/
def describe (s : Signal β) : String :=
  "Signal \x7b slot_count: " ++ toString s.size ++ " \x7d"

end Signal

end Recalc
