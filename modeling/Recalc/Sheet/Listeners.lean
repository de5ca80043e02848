import Recalc.Signal.Basic
import Recalc.Sheet.Event
import Recalc.Trace

/-!
# Listeners

The listeners of a sheet, and the delivery of its events to them. Announcements go to the listeners
of their kind, in order of connection. A listener records what it receives and may then disconnect
others; that has no effect on the announcement being delivered, which goes to everyone connected
when its delivery began.
-/

namespace Recalc

/-- A listener of a sheet. -/
structure SheetListener where
  /-- The kind of announcements it receives. -/
  kind : EventKind
  /-- The name it was connected under; the standard listeners have none. -/
  name : Option String := none
  /-- The handles it disconnects whenever it is called. -/
  detaches : List String := []
  deriving DecidableEq, Repr

/-- What is recorded when events are delivered. -/
inductive SheetRecord where
  /-- An event, as received by a listener of a name, or by a standard listener or the host. -/
  | received (listener : Option String) (e : Event)
  /-- A listener disconnected the handle of a name; no answer if there is no such handle. -/
  | detached (listener handle : String) (answer : Option Bool)
  deriving DecidableEq

/-- The connected listeners and the handles to their connections. -/
structure Switchboard where
  /-- The connected listeners of all kinds, oldest first. -/
  signal : Signal SheetListener := {}
  /-- The slot of the next connection. -/
  nextSlot : SlotId := 0
  /-- The handles by name. -/
  handles : OrderedMap String SlotId := ∅

namespace Switchboard

/-- Connect a listener. -/
def connect (b : Switchboard) (listener : SheetListener) : Switchboard :=
  { b with signal := b.signal.attach b.nextSlot listener, nextSlot := b.nextSlot + 1 }

/-- Connect a listener and keep its handle under its name; a handle kept there before is forgotten,
and its listener stays connected. -/
def listen (b : Switchboard) (name : String) (listener : SheetListener) : Switchboard :=
  { b.connect listener with handles := b.handles.insert name b.nextSlot }

/-- The standard listeners: one of each kind. -/
def standard : Switchboard := (Named.all : List EventKind).foldl (fun b k => b.connect { kind := k }) {}

/-- Disconnect the listener of a handle; no answer if there is no such handle. -/
def disconnect (b : Switchboard) (name : String) : Switchboard × Option Bool :=
  match b.handles.get? name with
  | none => (b, none)
  | some slot =>
    let (signal, was) := b.signal.detach slot
    ({ b with signal }, some was)

/-- Whether the listener of a handle is connected; no answer if there is no such handle. -/
def isConnected (b : Switchboard) (name : String) : Option Bool :=
  (b.handles.get? name).map b.signal.contains

/-- Drop a handle and disconnect its listener; the answer tells whether it was connected. -/
def drop (b : Switchboard) (name : String) : Switchboard × Option Bool :=
  let (b, answer) := b.disconnect name
  ({ b with handles := b.handles.erase name }, answer)

/-- Number of listeners of a kind. -/
def count (b : Switchboard) (kind : EventKind) : Nat :=
  (b.signal.slots.filter fun slot => slot.2.kind == kind).length

/-- Disconnect all listeners of a kind. -/
def disconnectAll (b : Switchboard) (kind : EventKind) : Switchboard :=
  { b with signal := b.signal.keep fun l => l.kind != kind }

/-- The number of listeners of each kind, as text. -/
def describe (b : Switchboard) : String :=
  "\x7b" ++ ", ".intercalate ((Named.all : List EventKind).map fun k =>
    Named.title k ++ ": " ++ toString (b.count k)) ++ "\x7d"

/-- Let one listener act on an event. -/
def call (e : Event) (b : Switchboard) (listener : SheetListener) : Traced SheetRecord Switchboard := do
  Traced.announce (.received listener.name e)
  match listener.name with
  | none => pure b
  | some name =>
    listener.detaches.foldlM (fun b other => do
      let (b, answer) := b.disconnect other
      Traced.announce (.detached name other answer)
      pure b) b

/-- Deliver an event. -/
def deliver (b : Switchboard) (e : Event) : Traced SheetRecord Switchboard :=
  match e with
  | .announce a =>
    ((b.signal.slots.map Prod.snd).filter fun l => l.kind == a.kind).foldlM (call e) b
  | _ => do
    Traced.announce (.received none e)
    pure b

/-- Deliver events one after the other. -/
def deliverAll (b : Switchboard) (es : List Event) : Traced SheetRecord Switchboard :=
  es.foldlM deliver b

end Switchboard

end Recalc
