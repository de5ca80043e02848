import Recalc.Proofs.Graph.Acyclic

/-!
# The link sets of graphs in use

The link sets of a node are kept up to date edge by edge, while nodes and edges come and go in any order
and batches are undone. In every graph that public operations reach, inside a batch or not, they say
what the stored edges say: a node lists another one exactly if the edge between them is stored and both
of them exist.
-/

namespace Recalc

namespace Graph

variable {g : Graph} {n : String} {node : Node}

namespace WellFormed

/-- A node reads what its stored edges lead to, as far as it exists. -/
theorem mem_dependencies_iff (hg : g.WellFormed) (hn : g.node? n = some node) (t : String) :
    t ∈ node.dependencies ↔ ⟨n, t⟩ ∈ g.edges.toList ∧ t ∈ g.names := by
  have hname : n ∈ g.names := mem_names_iff.2 ⟨node, hn⟩
  rw [OrderedSet.mem_def, ← dependenciesOf_of_node? hn, hg.mem_dependenciesOf]
  exact and_congr_right fun _ => and_iff_right hname

/-- A node is read by the nodes whose stored edges lead to it. -/
theorem mem_dependents_iff (hg : g.WellFormed) (hn : g.node? n = some node) (f : String) :
    f ∈ node.dependents ↔ ⟨f, n⟩ ∈ g.edges.toList ∧ f ∈ g.names := by
  have hname : n ∈ g.names := mem_names_iff.2 ⟨node, hn⟩
  rw [OrderedSet.mem_def, ← dependentsOf_of_node? hn, hg.mem_dependentsOf]
  exact and_congr_right fun _ => and_iff_left hname

end WellFormed

end Graph

namespace GraphSession

open Recalc.Graph

/-- Whatever was done to a graph: a node lists, each once, the existing targets of the edges that leave
it as what it reads, and the existing sources of the edges that arrive as what reads it. So one node is
among what another reads exactly if the other is among what reads the one. -/
theorem links_of_commands (commands : List GraphCommand) :
    let g := (performAll {} commands).value.graph
    ∀ n node, g.node? n = some node →
      node.dependencies.toList.Nodup ∧
      (∀ t, t ∈ node.dependencies ↔ ⟨n, t⟩ ∈ g.edges.toList ∧ t ∈ g.names) ∧
      node.dependents.toList.Nodup ∧
      (∀ f, f ∈ node.dependents ↔ ⟨f, n⟩ ∈ g.edges.toList ∧ f ∈ g.names) ∧
      ∀ m other, g.node? m = some other → (m ∈ node.dependencies ↔ n ∈ other.dependents) := by
  intro g n node hn
  have hg : g.WellFormed := (sound_of_commands commands).wellFormed
  refine ⟨node.dependencies.nodup, hg.mem_dependencies_iff hn, node.dependents.nodup,
    hg.mem_dependents_iff hn, fun m other hm => ?_⟩
  have hnames : m ∈ g.names ∧ n ∈ g.names := ⟨mem_names_iff.2 ⟨other, hm⟩, mem_names_iff.2 ⟨node, hn⟩⟩
  rw [hg.mem_dependencies_iff hn, hg.mem_dependents_iff hm]
  exact and_congr_right fun _ => iff_of_true hnames.1 hnames.2

/-- Inside a batch, a node that reads itself, and a missing one besides, lists itself on both sides. -/
theorem links_of_commands_self_edge :
    let g := (performAll {} [.beginBatch, .addEdges [⟨"a", "a"⟩, ⟨"a", "b"⟩], .addNode "a"]).value.graph
    ∃ node, g.node? "a" = some node ∧ node.dependencies.toList = ["a"] ∧
      node.dependents.toList = ["a"] ∧
      (∀ t, t ∈ node.dependencies ↔ ⟨"a", t⟩ ∈ g.edges.toList ∧ t ∈ g.names) ∧
      ∀ f, f ∈ node.dependents ↔ ⟨f, "a"⟩ ∈ g.edges.toList ∧ f ∈ g.names := by
  intro g
  obtain ⟨node, hnode⟩ : ∃ node, g.node? "a" = some node := mem_names_iff.1 (by decide)
  obtain ⟨-, hdependencies, -, hdependents, -⟩ := links_of_commands _ "a" node hnode
  have hlists : g.dependenciesOf "a" = ["a"] ∧ g.dependentsOf "a" = ["a"] := by decide
  rw [dependenciesOf_of_node? hnode, dependentsOf_of_node? hnode] at hlists
  exact ⟨node, hnode, hlists.1, hlists.2, hdependencies, hdependents⟩

end GraphSession

end Recalc
