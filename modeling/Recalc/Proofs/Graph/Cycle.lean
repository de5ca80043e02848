import Recalc.Proofs.Digraph.Cycle
import Recalc.Proofs.Graph.Links

/-!
# Cycles of a graph

A graph has a cycle if its edges with both ends among the nodes close a walk. The search of the graph
runs over the link sets, and in a well-formed graph it finds a cycle exactly if there is one.
-/

namespace Recalc.Graph

open Relation

variable {g : Graph} {nodes nodes' : List String} {edges edges' : List Edge}

/-- The edges with both ends among the nodes have a cycle. -/
def HasCycle (nodes : List String) (edges : List Edge) : Prop :=
  ∃ a, TransGen (DependsIn nodes edges) a a

/-- A cycle survives every extension. -/
theorem HasCycle.mono (hsub : ∀ a b, DependsIn nodes edges a b → DependsIn nodes' edges' a b)
    (h : HasCycle nodes edges) : HasCycle nodes' edges' := by
  obtain ⟨a, ha⟩ := h
  exact ⟨a, TransGen.mono hsub a a ha⟩

/-- Whether there is a cycle is a matter of what depends on what. -/
theorem hasCycle_congr (hiff : ∀ a b, DependsIn nodes edges a b ↔ DependsIn nodes' edges' a b) :
    HasCycle nodes edges ↔ HasCycle nodes' edges' :=
  ⟨HasCycle.mono fun a b => (hiff a b).1, HasCycle.mono fun a b => (hiff a b).2⟩

/-- Without nodes there is no cycle, whatever edges are stored. -/
theorem not_hasCycle_nil (edges : List Edge) : ¬ HasCycle [] edges := by
  rintro ⟨a, ha⟩
  obtain ⟨b, hab, -⟩ := TransGen.head'_iff.1 ha
  exact List.not_mem_nil hab.2.1

/-- The arcs along which the graph is searched are its dependencies. -/
theorem WellFormed.arc_eq (hg : g.WellFormed) : Digraph.Arc g.dependenciesOf = g.Depends := by
  funext a b
  exact propext (hg.mem_dependenciesOf a b)

/-- The search over the link sets finds a cycle exactly if the edges have one. -/
theorem WellFormed.findCycle?_eq_none_iff (hg : g.WellFormed) :
    g.findCycle? = none ↔ ¬ HasCycle g.names g.edges.toList := by
  have hnodes : ∀ a b, Digraph.Arc g.dependenciesOf a b → b ∈ g.names := fun a b hab =>
    ((hg.mem_dependenciesOf a b).1 hab).2.2
  rw [findCycle?, Digraph.findCycle?_eq_none_iff hnodes, hg.arc_eq, HasCycle, not_exists]

/-- In a `WellFormed` graph `Graph.findCycle?` finds a path exactly if the edges have a cycle. -/
theorem WellFormed.isSome_findCycle?_iff (hg : g.WellFormed) :
    (∃ path, g.findCycle? = some path) ↔ HasCycle g.names g.edges.toList := by
  rw [← not_iff_not, ← hg.findCycle?_eq_none_iff, Option.eq_none_iff_forall_ne_some, not_exists]

end Recalc.Graph
