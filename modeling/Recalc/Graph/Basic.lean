import Recalc.Graph.Edge
import Recalc.Graph.Node
import Recalc.Digraph.Cycle
import Recalc.Trace

/-!
# The dependency graph

The graph owns the nodes, listed in the order of creation, and the edges. `link` and `unlink` keep
the link sets of the nodes in step with the edges: a link exists exactly while the edge is stored
and both of its ends exist. Every change of a link set is announced as a `LinkSignal`.

While a batch is open the graph also keeps a journal of what was done, newest change first.
-/

namespace Recalc

/-- The announcement that a link set of an existing node changed. -/
inductive LinkSignal where
  /-- The dependencies of a node changed. -/
  | dependencies (name : String)
  /-- The dependents of a node changed. -/
  | dependents (name : String)
  deriving DecidableEq, Repr

/-- A change that can be undone. -/
inductive Change where
  /-- A node was created. -/
  | nodeAdded (name : String)
  /-- A node was removed from its place in the list of nodes. -/
  | nodeRemoved (name : String) (place : Nat) (node : Node)
  /-- An edge was stored. -/
  | edgeAdded (edge : Edge)
  /-- An edge was dropped. -/
  | edgeRemoved (edge : Edge)
  deriving DecidableEq

/-- A change was refused because the graph would have a cycle: the closed walk found, along
dependencies, its first name repeated at the end. -/
structure CycleError where
  /-- The closed walk. -/
  path : List String
  deriving DecidableEq, Repr

/-- The cycle as a sentence. -/
def CycleError.message (e : CycleError) : String :=
  "dependency cycle detected: " ++ " -> ".intercalate e.path

/-- Nodes and edges, with the journal of the open batch and the clock of stamps. -/
structure Graph where
  /-- The nodes, oldest first. -/
  nodes : OrderedMap String Node := ∅
  /-- The edges, dangling ones included. -/
  edges : EdgeStore := ∅
  /-- The changes of the open batch, newest first; absent while no batch is open. -/
  journal : Option (List Change) := none
  /-- The clock that stamps value changes. -/
  clock : Clock := {}
  deriving DecidableEq

namespace Graph

instance : Inhabited Graph := ⟨{}⟩

/-! ## Reading -/

/-- The node of a name. -/
def node? (g : Graph) (name : String) : Option Node := g.nodes.get? name

/-- Whether a node exists. -/
def hasNode (g : Graph) (name : String) : Bool := g.nodes.contains name

/-- The names of the nodes, oldest first. -/
def names (g : Graph) : List String := g.nodes.keys

/-- The existing nodes that a node reads, oldest link first. -/
def dependenciesOf (g : Graph) (name : String) : List String :=
  ((g.node? name).map fun n => n.dependencies.toList).getD []

/-- The existing nodes that read a node, oldest link first. -/
def dependentsOf (g : Graph) (name : String) : List String :=
  ((g.node? name).map fun n => n.dependents.toList).getD []

/-- Whether a batch is open. -/
def inBatch (g : Graph) : Bool := g.journal.isSome

/-- A cycle along dependencies, if there is one. -/
def findCycle? (g : Graph) : Option (List String) := Digraph.findCycle? g.dependenciesOf g.names

/-! ## Links -/

/-- The signals of an edge whose link changed at the source, at the target, or at both. -/
def linkSignals (e : Edge) (atSource atTarget : Bool) : List LinkSignal :=
  (if atSource then [.dependencies e.source] else []) ++
    (if atTarget then [.dependents e.target] else [])

/-- Enter an edge into the link sets of its ends; an edge with a missing end links nothing. -/
def link (g : Graph) (e : Edge) : Traced LinkSignal Graph :=
  match g.node? e.source, g.node? e.target with
  | some s, some t =>
    { value := { g with
        nodes := (g.nodes.modify e.source (·.addDependency e.target)).modify e.target
          (·.addDependent e.source) }
      events := linkSignals e (!s.dependencies.contains e.target)
        (!t.dependents.contains e.source) }
  | _, _ => pure g

/-- Take an edge out of the link sets of those of its ends that exist. -/
def unlink (g : Graph) (e : Edge) : Traced LinkSignal Graph where
  value := { g with
    nodes := (g.nodes.modify e.source (·.removeDependency e.target)).modify e.target
      (·.removeDependent e.source) }
  events := linkSignals e ((g.node? e.source).any fun s => s.dependencies.contains e.target)
    ((g.node? e.target).any fun t => t.dependents.contains e.source)

/-- The edges at a name: those that leave it, then those that arrive. -/
def edgesAt (g : Graph) (name : String) : List Edge := g.edges.leaving name ++ g.edges.arriving name

/-- Put a node at a place in the list of nodes and link the edges that now have both ends. -/
def attach (g : Graph) (place : Nat) (name : String) (node : Node) : Traced LinkSignal Graph :=
  (g.edgesAt name).foldlM link { g with nodes := g.nodes.insertAt place name node }

/-- Remove a node and unlink its edges, which stay in the store. -/
def detach (g : Graph) (name : String) : Traced LinkSignal Graph :=
  if g.hasNode name then (g.edgesAt name).foldlM unlink { g with nodes := g.nodes.erase name }
  else pure g

/-- Enter a change into the journal, if a batch is open. -/
def record (g : Graph) (c : Change) : Graph := { g with journal := g.journal.map (c :: ·) }

end Graph

end Recalc
