import Recalc.Graph.Staleness
import Recalc.Proofs.Digraph.Closure
import Recalc.Proofs.Graph.Undo

/-!
# Marks

Invalidating, cleaning and stamping a node change marks and the clock only (`SameShape`), and the
marks that they leave are given name by name. Invalidating reaches exactly the nodes that depend, in
any number of steps, on the name.
-/

namespace Recalc.Graph

open Relation

variable {g h : Graph}

/-- The graphs differ at most in their marks and their clocks. -/
structure SameShape (g h : Graph) : Prop where
  names : g.names = h.names
  edges : g.edges = h.edges
  dependenciesOf : ∀ n, g.dependenciesOf n = h.dependenciesOf n
  dependentsOf : ∀ n, g.dependentsOf n = h.dependentsOf n
  journal : g.journal = h.journal

namespace SameShape

theorem refl (g : Graph) : SameShape g g := ⟨rfl, rfl, fun _ => rfl, fun _ => rfl, rfl⟩

theorem trans {k : Graph} (h₁ : SameShape g h) (h₂ : SameShape h k) : SameShape g k :=
  ⟨h₁.names.trans h₂.names, h₁.edges.trans h₂.edges,
    fun n => (h₁.dependenciesOf n).trans (h₂.dependenciesOf n),
    fun n => (h₁.dependentsOf n).trans (h₂.dependentsOf n), h₁.journal.trans h₂.journal⟩

/-- Being `WellFormed` is a matter of the shape. -/
theorem wellFormed (hgh : SameShape g h) (hh : h.WellFormed) : g.WellFormed where
  indexed := hgh.edges ▸ hh.indexed
  mem_dependenciesOf := by
    intro n t
    rw [hgh.dependenciesOf, hh.mem_dependenciesOf, Depends, Depends, hgh.names, hgh.edges]
  mem_dependentsOf := by
    intro n f
    rw [hgh.dependentsOf, hh.mem_dependentsOf, Depends, Depends, hgh.names, hgh.edges]

/-- Where marks do not count, the graphs are alike. -/
theorem alike (hgh : SameShape g h) : Alike False g h :=
  ⟨hgh.names, fun _ => by rw [hgh.edges], False.elim⟩

/-- What depends on what is a matter of the shape. -/
theorem depends_iff (hgh : SameShape g h) (a b : String) : g.Depends a b ↔ h.Depends a b := by
  rw [Depends, Depends, hgh.names, hgh.edges]

/-- Graphs of the same shape have one and the same relation `Graph.Depends`. -/
theorem depends_eq (hgh : SameShape g h) : g.Depends = h.Depends :=
  funext₂ fun a b => propext (hgh.depends_iff a b)

end SameShape

/-- Changing flags and stamps of nodes keeps the shape. -/
theorem sameShape_mapValues (g : Graph) (f : String → Node → Node)
    (hdeps : ∀ n node, (f n node).dependencies = node.dependencies)
    (hdependents : ∀ n node, (f n node).dependents = node.dependents) (clock : Clock) :
    SameShape { g with nodes := g.nodes.mapValues f, clock } g where
  names := OrderedMap.keys_mapValues _ _
  edges := rfl
  dependenciesOf := by
    intro n
    unfold Graph.dependenciesOf node?
    rw [OrderedMap.get?_mapValues]
    cases g.nodes.get? n with
    | none => rfl
    | some node => simp [hdeps]
  dependentsOf := by
    intro n
    unfold Graph.dependentsOf node?
    rw [OrderedMap.get?_mapValues]
    cases g.nodes.get? n with
    | none => rfl
    | some node => simp [hdependents]
  journal := rfl

/-- `Graph.invalidate` keeps the shape: it sets flags. -/
theorem sameShape_invalidate (g : Graph) (name : String) : SameShape (g.invalidate name).1 g := by
  unfold invalidate
  split_ifs with hname
  · exact sameShape_mapValues g _ (fun n node => by split_ifs <;> rfl)
      (fun n node => by split_ifs <;> rfl) g.clock
  · exact SameShape.refl g

/-- `Graph.markClean` keeps the shape: it takes one flag back. -/
theorem sameShape_markClean (g : Graph) (name : String) : SameShape (g.markClean name).1 g :=
  sameShape_mapValues g _ (fun n node => by split_ifs <;> rfl) (fun n node => by split_ifs <;> rfl)
    g.clock

/-- `Graph.touch` keeps the shape: it writes one stamp and moves the clock. -/
theorem sameShape_touch (g : Graph) (name : String) : SameShape (g.touch name).1 g := by
  unfold touch
  split_ifs with hname
  · exact sameShape_mapValues g _ (fun n node => by split_ifs <;> rfl)
      (fun n node => by split_ifs <;> rfl) _
  · exact SameShape.refl g

/-! ## The marks left -/

/-- `Graph.markClean` takes the flag of its node back, keeps its stamp and leaves every other mark. -/
theorem mark?_markClean (g : Graph) (name n : String) :
    (g.markClean name).1.mark? n =
      if n = name then (g.mark? n).map fun mark => (false, mark.2) else g.mark? n := by
  unfold markClean mark? node?
  rw [OrderedMap.get?_modify]
  split_ifs <;> cases g.nodes.get? n <;> rfl

/-- `Graph.touch` gives its node the next stamp of the clock, keeps its flag and leaves every other mark. -/
theorem mark?_touch (g : Graph) (name n : String) :
    (g.touch name).1.mark? n =
      if n = name then (g.mark? n).map fun mark => (mark.1, g.clock.last + 1) else g.mark? n := by
  unfold touch
  split_ifs with hname hn hn
  · unfold mark? node?
    rw [OrderedMap.get?_modify, if_pos hn]
    cases g.nodes.get? n <;> rfl
  · unfold mark? node?
    rw [OrderedMap.get?_modify, if_neg hn]
  · have hnone : g.mark? n = none := mark?_eq_none.2 fun hmem => hname (hasNode_iff.2 (hn ▸ hmem))
    rw [hnone]
    rfl
  · rfl

/-- `Graph.touch` moves the clock by one for an existing node and not at all for a missing one. -/
theorem clock_touch (g : Graph) (name : String) :
    (g.touch name).1.clock = if name ∈ g.names then ⟨g.clock.last + 1⟩ else g.clock := by
  unfold touch
  simp only [hasNode_iff]
  split_ifs <;> rfl

theorem clock_markClean (g : Graph) (name : String) : (g.markClean name).1.clock = g.clock := rfl

theorem clock_invalidate (g : Graph) (name : String) : (g.invalidate name).1.clock = g.clock := by
  unfold invalidate
  split_ifs <;> rfl

/-- The arcs along dependents are the dependencies the other way round. -/
theorem WellFormed.arc_dependentsOf (hg : g.WellFormed) :
    Digraph.Arc g.dependentsOf = Function.swap g.Depends := by
  funext a b
  exact propext (hg.mem_dependentsOf a b)

/-- A name is in the closure of some names exactly if it depends, in any number of steps, on a node
among them. -/
theorem WellFormed.mem_dependentClosure (hg : g.WellFormed) {seeds : List String} {n : String} :
    n ∈ g.dependentClosure seeds ↔ ∃ m ∈ seeds, m ∈ g.names ∧ ReflTransGen g.Depends n m := by
  have hnodes : ∀ a b, Digraph.Arc g.dependentsOf a b → b ∈ g.names := fun a b hab =>
    ((hg.mem_dependentsOf a b).1 hab).2.1
  have hseeds : seeds.filter g.hasNode ⊆ g.names := fun m hm =>
    hasNode_iff.1 (List.mem_filter.1 hm).2
  rw [dependentClosure, Digraph.mem_closure hnodes (nodup_dependentsOf g)
    (by rw [names, OrderedMap.length_keys]) hseeds, hg.arc_dependentsOf]
  simp only [List.mem_filter, hasNode_iff, reflTransGen_swap, and_assoc]

/-- `Graph.invalidate` sets the flag of its node and of all that depend on it in any number of steps; every
other flag and every stamp stays. -/
theorem WellFormed.mark?_invalidate (hg : g.WellFormed) {name n : String} (hname : name ∈ g.names)
    [Decidable (ReflTransGen g.Depends n name)] :
    (g.invalidate name).1.mark? n =
      (g.mark? n).map fun mark => (mark.1 || decide (ReflTransGen g.Depends n name), mark.2) := by
  have hmem : n ∈ g.dependentClosure [name] ↔ ReflTransGen g.Depends n name := by
    rw [hg.mem_dependentClosure]
    simp [hname]
  unfold invalidate
  rw [if_pos (hasNode_iff.2 hname)]
  unfold mark? node?
  rw [OrderedMap.get?_mapValues]
  cases g.nodes.get? n with
  | none => rfl
  | some node =>
    simp only [Option.map_some, hmem]
    split_ifs with hreach <;> simp [hreach]

end Recalc.Graph
