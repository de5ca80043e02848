import Recalc.Proofs.Digraph.Search
import Recalc.Proofs.Graph.Session

/-!
# The cycle search of a graph in use

A graph may be asked for a cycle at any time, also inside a batch, where it may have one. The search ends,
and it finds a cycle exactly if the stored edges between existing nodes have one. The path that it answers
leads along the link sets of the nodes: it is closed and comes to no other node twice.
-/

namespace Recalc

namespace Digraph.IsCycle

variable {α : Type} {next : α → List α} {walk : List α}

/-- A cycle names at least two nodes, the first one again at the end. -/
theorem two_le_length (h : IsCycle next walk) : 2 ≤ walk.length := by
  obtain ⟨a, inner, rfl, -, -⟩ := h
  rw [List.length_append, List.length_cons, List.length_singleton]
  omega

/-- A cycle ends with the node that it begins with. -/
theorem head?_eq_getLast? (h : IsCycle next walk) : walk.head? = walk.getLast? := by
  obtain ⟨a, inner, rfl, -, -⟩ := h
  rw [List.getLast?_concat]
  rfl

/-- Apart from its last node a cycle comes to no node twice. -/
theorem nodup_dropLast (h : IsCycle next walk) : walk.dropLast.Nodup := by
  obtain ⟨a, inner, rfl, hnodup, -⟩ := h
  rwa [List.dropLast_concat]

/-- A cycle goes along arcs. -/
theorem isChain (h : IsCycle next walk) : walk.IsChain (Arc next) := by
  obtain ⟨a, inner, -, -, hchain⟩ := h
  exact hchain

/-- Every node of a cycle is the end of an arc. -/
theorem exists_arc (h : IsCycle next walk) {b : α} (hb : b ∈ walk) : ∃ c, Arc next c b := by
  obtain ⟨a, inner, rfl, -, hchain⟩ := h
  -- Seen as the last node, the first one has a node before it as well.
  have hb : b ∈ inner ++ [a] := by simpa [or_comm] using hb
  obtain ⟨before, after, hsplit⟩ := List.append_of_mem hb
  rw [List.cons_append, hsplit] at hchain
  rcases List.eq_nil_or_concat before with rfl | ⟨before, c, rfl⟩
  · exact ⟨a, (List.isChain_cons_cons.1 hchain).1⟩
  · refine ⟨c, ?_⟩
    have htail := (List.isChain_cons.1 hchain).2
    rw [List.concat_eq_append, List.append_assoc, List.isChain_append] at htail
    exact (List.isChain_cons_cons.1 htail.2.1).1

end Digraph.IsCycle

namespace Graph

variable {g : Graph} {path : List String}

/-- Each name is that of a node which lists the next name among what it reads. -/
def FollowsLinks (g : Graph) (path : List String) : Prop :=
  path.IsChain fun m n => ∃ node, g.node? m = some node ∧ n ∈ node.dependencies

/-- A dependency of a name is listed by the node of that name. -/
theorem exists_node_of_mem_dependenciesOf {m n : String} (h : n ∈ g.dependenciesOf m) :
    ∃ node, g.node? m = some node ∧ n ∈ node.dependencies := by
  unfold dependenciesOf at h
  cases hm : g.node? m with
  | none =>
    rw [hm] at h
    exact absurd h List.not_mem_nil
  | some node =>
    rw [hm] at h
    exact ⟨node, rfl, h⟩

namespace WellFormed

/-- What a node reads are nodes. -/
theorem mem_names_of_arc (hg : g.WellFormed) {m n : String} (h : Digraph.Arc g.dependenciesOf m n) :
    n ∈ g.names := ((hg.mem_dependenciesOf m n).1 h).2.2

/-- The path that `Graph.findCycle?` answers is a cycle along the dependency sets. -/
theorem isCycle_of_findCycle? (hg : g.WellFormed) (h : g.findCycle? = some path) :
    Digraph.IsCycle g.dependenciesOf path :=
  Digraph.isCycle_of_findCycle? (fun _ _ => hg.mem_names_of_arc) h

end WellFormed

end Graph

namespace GraphSession

open Recalc.Graph

/-- Whatever was done to a graph, also inside a batch: the search for a cycle, run step by step, ends with
its answer; the answer is none exactly if the edges between existing nodes have no cycle; and a path that
is answered begins and ends on the same node, repeats no other, and consists of existing nodes, each of
which has the next one among its dependencies. -/
theorem cycleSearch_of_commands (commands : List GraphCommand) :
    let g := (performAll {} commands).value.graph
    Digraph.Search.Reaches g.dependenciesOf (.start g.names) (.over g.findCycle?) ∧
    (g.findCycle? = none ↔ ¬ HasCycle g.names g.edges.toList) ∧
    ∀ path, g.findCycle? = some path →
      2 ≤ path.length ∧ path.head? = path.getLast? ∧ path.dropLast.Nodup ∧
      (∀ n ∈ path, n ∈ g.names) ∧ g.FollowsLinks path := by
  intro g
  have hg : g.WellFormed := (sound_of_commands commands).wellFormed
  refine ⟨Digraph.reaches_findCycle? fun _ _ => hg.mem_names_of_arc, hg.findCycle?_eq_none_iff,
    fun path hpath => ?_⟩
  have hcycle := hg.isCycle_of_findCycle? hpath
  refine ⟨hcycle.two_le_length, hcycle.head?_eq_getLast?, hcycle.nodup_dropLast, fun n hn => ?_, ?_⟩
  · obtain ⟨m, hmn⟩ := hcycle.exists_arc hn
    exact hg.mem_names_of_arc hmn
  · exact hcycle.isChain.imp fun _ _ => exists_node_of_mem_dependenciesOf

/-- Three nodes in a circle, with a fourth one that leads into it, while a batch is open. -/
def circle : List GraphCommand :=
  [.addNodes ["d", "a", "b", "c"], .addEdges [⟨"d", "a"⟩, ⟨"a", "b"⟩, ⟨"b", "c"⟩], .beginBatch,
    .addEdge ⟨"c", "a"⟩]

/-- The path leaves out the node that only leads into the circle. -/
theorem cycleSearch_of_commands_circle :
    let g := (performAll {} circle).value.graph
    g.inBatch = true ∧ g.findCycle? = some ["a", "b", "c", "a"] ∧
      Digraph.Search.Reaches g.dependenciesOf (.start g.names) (.over (some ["a", "b", "c", "a"])) ∧
      HasCycle g.names g.edges.toList ∧ g.FollowsLinks ["a", "b", "c", "a"] := by
  intro g
  obtain ⟨hreaches, hnone, hpath⟩ := cycleSearch_of_commands circle
  have hfound : g.findCycle? = some ["a", "b", "c", "a"] := by decide
  obtain ⟨-, -, -, -, hfollows⟩ := hpath _ hfound
  refine ⟨by decide, hfound, hfound ▸ hreaches, ?_, hfollows⟩
  by_contra hacyclic
  exact absurd (hnone.2 hacyclic) (by rw [hfound]; exact Option.some_ne_none _)

end GraphSession

end Recalc
