import Recalc.Signal.Session

/-!
# Scripted listeners

A scripted listener performs a fixed list of actions on each of its first calls and nothing later.
Whatever such listeners do, emissions end: an emission can be nested in another only while a
listener is performing its actions, and `depth` counts how often that can happen at all.
-/

namespace Recalc

/-- An action whose listeners, if it connects one, are scripted. -/
inductive SignalScript where
  /-- Connect a listener that performs the actions on each of its first `times` calls. -/
  | connect (handle : String) (actions : List SignalScript) (times : Nat)
  | emit (text : String)
  | disconnectAll
  | describe
  | disconnect (handle : String)
  | isConnected (handle : String)
  | scope (handle : String)
  | release (handle : String)
  | drop (handle : String)
  | sameSlot (handle other : String)
  | dropSignal

namespace SignalScript

mutual

/-- The action that a script stands for. -/
def action : SignalScript → SignalAction
  | .connect handle scripts times =>
    let actions := actionsOf scripts
    .connect handle fun n _ => if n < times then actions else []
  | .emit text => .emit text
  | .disconnectAll => .disconnectAll
  | .describe => .describe
  | .disconnect handle => .disconnect handle
  | .isConnected handle => .isConnected handle
  | .scope handle => .scope handle
  | .release handle => .release handle
  | .drop handle => .drop handle
  | .sameSlot handle other => .sameSlot handle other
  | .dropSignal => .dropSignal

/-- The actions of a list of scripts. -/
def actionsOf : List SignalScript → List SignalAction
  | [] => []
  | s :: ss => s.action :: actionsOf ss

end

mutual

/-- How often listeners can perform their actions because of one run of a script. -/
def weight : SignalScript → Nat
  | .connect _ actions times => times * (1 + weightOf actions)
  | _ => 0

/-- How often listeners can perform their actions because of one run of some scripts. -/
def weightOf : List SignalScript → Nat
  | [] => 0
  | s :: ss => s.weight + weightOf ss

end

/-- A depth that no emission exceeds while these scripts are run one after the other. -/
def depth (scripts : List SignalScript) : Nat := weightOf scripts + 1

end SignalScript

/-- What the actions are called. -/
def SignalAction.verb : SignalAction → String
  | .connect .. => "connect"
  | .emit _ => "emit"
  | .disconnectAll => "disconnect_all"
  | .describe => "debug"
  | .disconnect _ => "disconnect"
  | .isConnected _ => "is_connected"
  | .scope _ => "scope"
  | .release _ => "release"
  | .drop _ => "drop"
  | .sameSlot .. => "same_id"
  | .dropSignal => "drop_signal"

end Recalc
