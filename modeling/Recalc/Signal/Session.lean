import Recalc.OrderedMap
import Recalc.Signal.Basic

/-!
# A signal in use

One signal, the handles to its connections, and everything that happened so far. A listener answers
a call with a list of actions, and these may act on the signal that is calling it: connect,
disconnect, emit again, drop the signal.

An emission calls the listeners connected at the moment it begins, in order of connection, whatever
happens to the connections meanwhile; an emission begun inside it runs to its end first. A signal
that is dropped while it is emitting lives on until its last emission has ended.

A listener may emit again every time it is called, and then an emission does not end. `perform`
therefore bounds the depth of nested emissions, and has no result when the bound is exceeded.
-/

namespace Recalc

/-- Something that can be done to a signal or to the handles of its connections. -/
inductive SignalAction where
  /-- Connect a listener and keep the handle under a name. The listener answers its `n`-th call,
  counted from 0, with a list of actions. -/
  | connect (handle : String) (respond : Nat → String → List SignalAction)
  /-- Call the listeners with a text. -/
  | emit (text : String)
  /-- Disconnect every listener. -/
  | disconnectAll
  /-- Describe the signal. -/
  | describe
  /-- Disconnect the listener of a handle. -/
  | disconnect (handle : String)
  /-- Ask whether the listener of a handle is connected. -/
  | isConnected (handle : String)
  /-- Make a handle scoped. -/
  | scope (handle : String)
  /-- Make a scoped handle plain. -/
  | release (handle : String)
  /-- Drop a handle. -/
  | drop (handle : String)
  /-- Ask whether two plain handles belong to the same connection. -/
  | sameSlot (handle other : String)
  /-- Drop the signal. -/
  | dropSignal

/-- What an action answers. -/
inductive SignalReply where
  /-- Nothing to tell. -/
  | done
  /-- A yes or no. -/
  | flag (b : Bool)
  /-- The text of a signal. -/
  | text (t : String)
  /-- The handle is scoped, so the action does not apply. -/
  | alreadyScoped
  /-- The handle is not scoped, so the action does not apply. -/
  | notScoped
  /-- There is no such handle. -/
  | noHandle
  /-- The signal is gone. -/
  | noSignal
  deriving DecidableEq, Repr

/-- A handle to a connection. Dropping a scoped handle disconnects its listener. -/
structure SignalHandle where
  /-- The connection. -/
  slot : SlotId
  /-- Whether the handle is scoped: the connection ends with it. -/
  isScoped : Bool
  deriving DecidableEq, Repr

/-- A connected listener: the name it was connected under and its answers. -/
structure SignalListener where
  /-- The handle name given when it was connected. -/
  name : String
  /-- The actions on its `n`-th call. -/
  respond : Nat → String → List SignalAction

/-- Something that happened during the use of a signal. -/
inductive SignalEvent where
  /-- An emission began, with these slots connected. -/
  | began (slots : List SlotId)
  /-- A listener was called. -/
  | called (slot : SlotId) (name : String) (text : String)
  /-- A listener that was called performed an action. -/
  | acted (slot : SlotId) (name : String) (action : SignalAction) (reply : SignalReply)
  /-- The emission begun last among those that have not ended ended. -/
  | ended

/-- A signal with its handles and its history. -/
structure SignalSession where
  /-- The connected listeners. -/
  signal : Signal SignalListener := {}
  /-- The slot of the next connection. -/
  nextSlot : SlotId := 0
  /-- How often the listener of each slot has been called. -/
  calls : OrderedMap SlotId Nat := ∅
  /-- The handles by name. -/
  handles : OrderedMap String SignalHandle := ∅
  /-- Whether the signal has been dropped. -/
  dropped : Bool := false
  /-- How many emissions are in progress. -/
  running : Nat := 0
  /-- What happened so far, oldest first. -/
  history : List SignalEvent := []

namespace SignalSession

/-- Add an event to the history. -/
def log (s : SignalSession) (e : SignalEvent) : SignalSession :=
  { s with history := s.history ++ [e] }

/-- Disconnect one slot. -/
def detach (s : SignalSession) (slot : SlotId) : SignalSession × Bool :=
  let (signal, was) := s.signal.detach slot
  ({ s with signal }, was)

/-- Let go of a handle that no name refers to any more: the connection of a scoped one ends. -/
def discard (s : SignalSession) (h : SignalHandle) : SignalSession :=
  if h.isScoped then (s.detach h.slot).1 else s

/-- A dropped signal loses its listeners as soon as no emission is in progress. -/
def settle (s : SignalSession) : SignalSession :=
  if s.dropped && s.running == 0 then { s with signal := {} } else s

/-- Connect a listener and keep its handle under a name; a handle kept there before is dropped
after the new listener is connected. -/
def connect (s : SignalSession) (listener : SignalListener) : SignalSession :=
  let replaced := s.handles.get? listener.name
  let s := { s with
    signal := s.signal.attach s.nextSlot listener
    nextSlot := s.nextSlot + 1
    handles := s.handles.insert listener.name ⟨s.nextSlot, false⟩ }
  replaced.elim s s.discard

/-- Do something with the handle of a name, if there is one. -/
def withHandle (s : SignalSession) (name : String)
    (act : SignalHandle → SignalSession × SignalReply) : SignalSession × SignalReply :=
  match s.handles.get? name with
  | none => (s, .noHandle)
  | some h => act h

/-- Perform an action that is not an emission. -/
def act (s : SignalSession) : SignalAction → SignalSession × SignalReply
  | .connect name respond => if s.dropped then (s, .noSignal) else (s.connect ⟨name, respond⟩, .done)
  | .emit _ => (s, .done)
  | .disconnectAll => if s.dropped then (s, .noSignal) else ({ s with signal := {} }, .done)
  | .describe => (s, if s.dropped then .noSignal else .text s.signal.describe)
  | .disconnect name => s.withHandle name fun h =>
    if h.isScoped then (s, .alreadyScoped)
    else
      let (s, was) := s.detach h.slot
      (s, .flag was)
  | .isConnected name => s.withHandle name fun h => (s, .flag (s.signal.contains h.slot))
  | .scope name => s.withHandle name fun h =>
    if h.isScoped then (s, .alreadyScoped)
    else ({ s with handles := s.handles.insert name { h with isScoped := true } }, .done)
  | .release name => s.withHandle name fun h =>
    if h.isScoped then ({ s with handles := s.handles.insert name { h with isScoped := false } }, .done)
    else (s, .notScoped)
  | .drop name => s.withHandle name fun h =>
    ({ s with handles := s.handles.erase name }.discard h, .done)
  | .sameSlot name other =>
    match s.handles.get? name, s.handles.get? other with
    | some h, some k =>
      (s, if h.isScoped || k.isScoped then .noHandle else .flag (h.slot == k.slot))
    | _, _ => (s, .noHandle)
  | .dropSignal =>
    if s.dropped then (s, .flag false) else ({ s with dropped := true }.settle, .flag true)

/-- Enter an emission: the history tells which slots are connected. -/
def beginEmission (s : SignalSession) : SignalSession :=
  { s with running := s.running + 1 }.log (.began s.signal.ids)

/-- Leave an emission. -/
def endEmission (s : SignalSession) : SignalSession :=
  ({ s with running := s.running - 1 }.log .ended).settle

/-- Count a call of a listener and enter it into the history; the number tells how often the
listener was called before. -/
def beginCall (s : SignalSession) (slot : SlotId) (listener : SignalListener) (text : String) :
    SignalSession × Nat :=
  let n := (s.calls.get? slot).getD 0
  ({ s with calls := s.calls.insert slot (n + 1) }.log (.called slot listener.name text), n)

/-- Perform an action, with at most `depth` emissions nested in each other; no result when that is
not enough. -/
def perform : (depth : Nat) → SignalSession → SignalAction → Option (SignalSession × SignalReply)
  | 0, s, .emit _ => if s.dropped then some (s, .noSignal) else none
  | depth + 1, s, .emit text =>
    if s.dropped then some (s, .noSignal)
    else do
      let s' ← s.signal.slots.foldlM (fun s slot => do
        let (s, n) := s.beginCall slot.1 slot.2 text
        (slot.2.respond n text).foldlM (fun s action => do
          let (s, reply) ← perform depth s action
          some (s.log (.acted slot.1 slot.2.name action reply))) s) s.beginEmission
      some (s'.endEmission, .done)
  | _, s, action => some (s.act action)

end SignalSession

end Recalc
