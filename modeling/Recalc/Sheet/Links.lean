import Recalc.Sheet.Basic

/-!
# Link changes

A structural edit rewires the graph in one batch. Names that are detached lose their node and the
edges that leave it; items that are attached get a node and an edge to each name they read.

What the edit did to the links of an equation is announced after it: the nodes that the edit may
touch are noted beforehand, and an equation whose link sets are the same as before is not announced,
even if its node was dropped and came back.
-/

namespace Recalc

namespace Graph

/-- Remove the node of a name and the edges that leave it. -/
def detachName (g : Graph) (name : String) : Traced LinkSignal Graph := do
  let (g, _) ← g.removeNode name
  let (g, _) ← g.removeEdges (g.edges.leaving name)
  pure g

/-- Create the node of an item and make the names it reads the only ones it has edges to. -/
def attachItem (g : Graph) (item : ParseItem) :
    Traced LinkSignal (Graph × Except CycleError Bool) := do
  match ← g.addNode item.name with
  | (g, .error e) => pure (g, .error e)
  | (g, .ok _) => do
    let (g, _) ← g.removeEdges (g.edges.leaving item.name)
    addAll addEdge g (item.dependencies.map fun d => ⟨item.name, d⟩)

/-- Detach names and attach items in one batch. -/
def rewire (g : Graph) (detached : List String) (attached : List ParseItem) :
    Traced LinkSignal (Graph × Except CycleError Bool) :=
  g.guarded fun g => do
    let g ← detached.foldlM detachName g
    addAll attachItem g attached

/-- The names whose links an edit may touch: the detached and attached names with their neighbours,
and the names that the attached items read. -/
def touchedBy (g : Graph) (detached : List String) (attached : List ParseItem) : List String :=
  let neighbourhood (name : String) : List String :=
    name :: ((g.edges.leaving name).map (·.target) ++ (g.edges.arriving name).map (·.source))
  (detached ++ attached.map (·.name)).flatMap neighbourhood ++
    attached.flatMap (·.dependencies)

end Graph

/-- Nodes as they were before an edit. -/
abbrev LinkSnapshot := OrderedMap String Node

namespace LinkSnapshot

/-- Note the node of a name, if it exists. -/
def note (g : Graph) (snapshot : LinkSnapshot) (name : String) : LinkSnapshot :=
  match g.node? name with
  | some node => snapshot.insert name node
  | none => snapshot

/-- Note the nodes that an edit may touch. -/
def capture (g : Graph) (detached : List String) (attached : List ParseItem) : LinkSnapshot :=
  (g.touchedBy detached attached).foldl (note g) ∅

/-- What an edit did to the links of a name: the difference to the noted node, or what the graph
reported if there is none to compare. -/
def netChange (snapshot : LinkSnapshot) (g : Graph) (name : String) (reported : EquationFlags) :
    EquationFlags :=
  match snapshot.get? name, g.node? name with
  | some old, some new =>
    (if new.dependencies.sameElements old.dependencies then ∅ else .of .dependencies) ∪
      (if new.dependents.sameElements old.dependents then ∅ else .of .dependents)
  | _, _ => reported

end LinkSnapshot

namespace Sheet

/-- Note a link change that the graph reports. -/
def noteSignal (pending : OrderedMap String EquationFlags) (signal : LinkSignal) :
    OrderedMap String EquationFlags :=
  match signal with
  | .dependencies name =>
    pending.insert name ((pending.get? name).getD ∅ ∪ .of .dependencies)
  | .dependents name =>
    pending.insert name ((pending.get? name).getD ∅ ∪ .of .dependents)

/-- Rewire the graph, noting the link changes it reports; a refusal leaves none of them. -/
def rewire (s : Sheet) (detached : List String) (attached : List ParseItem) :
    Sheet × Except CycleError Unit :=
  let t := s.graph.rewire detached attached
  match t.value with
  | (graph, .error e) => ({ s with graph, pending := ∅ }, .error e)
  | (graph, .ok _) => ({ s with graph, pending := t.events.foldl noteSignal s.pending }, .ok ())

/-- The names whose links may have changed, with what the graph reported: those reported first, in
the order of the reports, then the other noted ones. -/
def linkChanges (pending : OrderedMap String EquationFlags) (snapshot : LinkSnapshot) :
    List (String × EquationFlags) :=
  pending.entries ++ (snapshot.keys.filter (!pending.contains ·)).map (·, ∅)

/-- Announce the link changes of an edit. -/
def flush (s : Sheet) (snapshot : LinkSnapshot) : Traced Event Sheet := do
  let changes := linkChanges s.pending snapshot
  let s := { s with pending := ∅ }
  changes.forM fun (name, reported) =>
    let flags := snapshot.netChange s.graph name reported
    if flags.isEmpty then pure () else s.announceUpdate name flags
  pure s

end Sheet

end Recalc
