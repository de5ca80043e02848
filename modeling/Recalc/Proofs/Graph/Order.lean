import Recalc.Proofs.Digraph.Order
import Recalc.Proofs.Graph.Acyclic
import Recalc.Proofs.Graph.Freshness

/-!
# Evaluation orders

Outside a batch a sound graph has no cycle, so an evaluation order leaves nothing out: it lists exactly
the nodes of its scope, and no node before one that it depends on.
-/

namespace Recalc.Graph

open Relation

variable {g g' : Graph} {scope seeds : List String} {n : String}

/-- One can recurse along the dependencies of a sound graph. -/
theorem Sound.wellFounded (hg : g.Sound) (hb : g.inBatch = false) :
    WellFounded fun d n => g.Depends n d :=
  Digraph.wellFounded_of_acyclic g.names (fun _ _ h => h.2.1) fun a ha =>
    hg.not_hasCycle hb ⟨a, ha⟩

/-- No node depends on itself. -/
theorem Sound.not_depends_self (hg : g.Sound) (hb : g.inBatch = false) (n : String) :
    ¬ g.Depends n n := fun h => hg.not_hasCycle hb ⟨n, TransGen.single h⟩

/-- No node depends on one that depends on it. -/
theorem Sound.not_reaches_of_depends (hg : g.Sound) (hb : g.inBatch = false) {d : String}
    (hnd : g.Depends n d) : ¬ ReflTransGen g.Depends d n := fun h =>
  hg.not_hasCycle hb ⟨n, TransGen.head' hnd h⟩

/-- In a `WellFormed` graph the two link sets agree on what depends on what. -/
theorem WellFormed.mem_dependentsOf_iff (hg : g.WellFormed) (a b : String) :
    b ∈ g.dependentsOf a ↔ a ∈ g.dependenciesOf b := by
  rw [hg.mem_dependentsOf, hg.mem_dependenciesOf]

/-- An order within a scope lists the scope. -/
theorem Sound.mem_orderWithin (hg : g.Sound) (hb : g.inBatch = false) (hscope : scope.Nodup) :
    n ∈ g.orderWithin scope ↔ n ∈ scope := by
  have hwf : WellFounded fun d n => d ∈ g.dependenciesOf n := by
    simp only [hg.wellFormed.mem_dependenciesOf]
    exact hg.wellFounded hb
  exact Digraph.mem_topologicalOrder_of_wellFounded (nodup_dependentsOf g)
    hg.wellFormed.mem_dependentsOf_iff hscope hwf

/-- `Graph.orderWithin` lists no node twice. -/
theorem WellFormed.nodup_orderWithin (hg : g.WellFormed) (hscope : scope.Nodup) :
    (g.orderWithin scope).Nodup :=
  Digraph.nodup_topologicalOrder (nodup_dependentsOf g) hg.mem_dependentsOf_iff hscope

/-- `Graph.orderWithin` lists no node before one that it depends on. -/
theorem Sound.pairwise_orderWithin (hg : g.Sound) (hb : g.inBatch = false) (hscope : scope.Nodup) :
    (g.orderWithin scope).Pairwise fun a b => ¬ g.Depends a b := by
  have hsorted := Digraph.sorted_topologicalOrder (nodup_dependentsOf g)
    hg.wellFormed.mem_dependentsOf_iff hscope
  have hpairwise := hsorted.pairwise (fun m hm => (hg.mem_orderWithin hb hscope).1 hm)
    (hg.wellFormed.nodup_orderWithin hscope)
  simp only [hg.wellFormed.mem_dependenciesOf] at hpairwise
  exact hpairwise

/-- `Graph.dependentClosure` lists no node twice, even if a seed is repeated. -/
theorem WellFormed.nodup_dependentClosure (hg : g.WellFormed) (seeds : List String) :
    (g.dependentClosure seeds).Nodup := by
  have hnodes : ∀ a b, Digraph.Arc g.dependentsOf a b → b ∈ g.names := fun a b hab =>
    ((hg.mem_dependentsOf a b).1 hab).2.1
  refine Digraph.nodup_closure hnodes (nodup_dependentsOf g) ?_ ?_
  · rw [names, OrderedMap.length_keys]
  · exact fun m hm => hasNode_iff.1 (List.mem_filter.1 hm).2

/-- The order of the whole graph lists every node. -/
theorem Sound.mem_evaluationOrder (hg : g.Sound) (hb : g.inBatch = false) :
    n ∈ g.evaluationOrder ↔ n ∈ g.names := hg.mem_orderWithin hb g.names_nodup

/-- Outside a batch a `Sound` graph has no cycle, so `Graph.evaluationOrderOf` is the order within the closure
of the seeds and never the empty answer. -/
theorem Sound.evaluationOrderOf_eq (hg : g.Sound) (hb : g.inBatch = false) (seeds : List String) :
    g.evaluationOrderOf seeds = g.orderWithin (g.dependentClosure seeds) := by
  have hscope := hg.wellFormed.nodup_dependentClosure seeds
  have hperm : (g.orderWithin (g.dependentClosure seeds)).Perm (g.dependentClosure seeds) :=
    (List.perm_ext_iff_of_nodup (hg.wellFormed.nodup_orderWithin hscope) hscope).2 fun _ =>
      hg.mem_orderWithin hb hscope
  exact if_pos hperm.length_eq

/-! ## Graphs of the same shape -/

namespace SameShape

/-- Graphs of the same shape have the same order within every scope. -/
theorem orderWithin (h : SameShape g' g) (scope : List String) :
    g'.orderWithin scope = g.orderWithin scope := by
  rw [Graph.orderWithin, Graph.orderWithin, funext h.dependenciesOf, funext h.dependentsOf]

/-- Graphs of the same shape have the same `Graph.evaluationOrder`. -/
theorem evaluationOrder (h : SameShape g' g) : g'.evaluationOrder = g.evaluationOrder := by
  rw [Graph.evaluationOrder, Graph.evaluationOrder, h.orderWithin, h.names]

/-- Graphs of the same shape have the same order of what depends on given names. -/
theorem evaluationOrderOf (h : SameShape g' g) (seeds : List String) :
    g'.evaluationOrderOf seeds = g.evaluationOrderOf seeds := by
  have hsize : g'.nodes.size = g.nodes.size := by
    rw [← OrderedMap.length_keys, ← OrderedMap.length_keys]
    exact congrArg List.length h.names
  have hnode : g'.hasNode = g.hasNode := by
    funext n
    rw [Bool.eq_iff_iff, hasNode_iff, hasNode_iff, h.names]
  have hclosure : g'.dependentClosure seeds = g.dependentClosure seeds := by
    rw [dependentClosure, dependentClosure, funext h.dependentsOf, hsize, hnode]
  simp only [Graph.evaluationOrderOf, hclosure, h.orderWithin]

end SameShape

end Recalc.Graph
