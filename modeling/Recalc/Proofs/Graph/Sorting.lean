import Recalc.Proofs.Digraph.Countdown
import Recalc.Proofs.Digraph.Flood
import Recalc.Proofs.Digraph.Leftover
import Recalc.Proofs.Graph.Order

/-!
# The orders of graphs in use

Every graph in use has its orders, also inside a batch, where it may have cycles. The order of the whole
graph leaves out the nodes on and behind cycles. The order of some names is all or nothing: what the
names cover, that is, what depends on one of them, is closed under what depends on it, so a cycle through
one of the covered nodes is covered as a whole, and then there is no order. Cycles elsewhere do not matter,
not even cycles that covered nodes depend on.

Both orders come from a countdown, and what the names cover comes from a flood. The statements say that
these end, and with which result.
-/

namespace Recalc

namespace Graph

open Relation

variable {g : Graph} {scope names : List String} {n d : String}

namespace WellFormed

/-! ## Orders within a scope -/

/-- Counting down within a scope ends with its order. -/
theorem reaches_orderWithin (hg : g.WellFormed) (hscope : scope.Nodup) :
    ∃ counts, Digraph.Countdown.Reaches g.dependentsOf (.start g.dependenciesOf scope)
      ⟨counts, [], g.orderWithin scope⟩ :=
  Digraph.Countdown.reaches_topologicalOrder (nodup_dependenciesOf g) (nodup_dependentsOf g)
    hg.mem_dependentsOf_iff hscope

/-- An order within a scope lists the nodes from which no cycle of the scope can be reached. -/
theorem mem_orderWithin (hg : g.WellFormed) (hscope : scope.Nodup) :
    n ∈ g.orderWithin scope ↔ n ∈ scope ∧
      ∀ c, ReflTransGen (Digraph.Within g.dependenciesOf scope) n c →
        ¬ TransGen (Digraph.Within g.dependenciesOf scope) c c :=
  Digraph.mem_topologicalOrder_iff (nodup_dependentsOf g) hg.mem_dependentsOf_iff hscope

/-- `Graph.orderWithin` lists each node after its dependencies in the scope. -/
theorem mem_before_orderWithin (hg : g.WellFormed) (hscope : scope.Nodup) {before after : List String}
    (hsplit : g.orderWithin scope = before ++ n :: after) (hnd : g.Depends n d) (hd : d ∈ scope) :
    d ∈ before :=
  Digraph.sorted_topologicalOrder (nodup_dependentsOf g) hg.mem_dependentsOf_iff hscope before n after
    hsplit d ((hg.mem_dependenciesOf n d).2 hnd) hd

/-- A dependency within a scope is a dependency of the graph. -/
theorem depends_of_within (hg : g.WellFormed) (h : Digraph.Within g.dependenciesOf scope n d) :
    g.Depends n d := (hg.mem_dependenciesOf n d).1 h.1

/-- All dependencies are between nodes. -/
theorem within_names (hg : g.WellFormed) : Digraph.Within g.dependenciesOf g.names = g.Depends := by
  funext a b
  refine propext ⟨hg.depends_of_within, fun hab => ?_⟩
  exact ⟨(hg.mem_dependenciesOf a b).2 hab, hab.2.1, hab.2.2⟩

/-- A path to a node of a scope that is closed under what depends on it stays in the scope. -/
theorem transGen_within (hg : g.WellFormed) (hclosed : ∀ n d, g.Depends n d → d ∈ scope → n ∈ scope)
    (hnd : TransGen g.Depends n d) (hd : d ∈ scope) :
    TransGen (Digraph.Within g.dependenciesOf scope) n d := by
  have hpath : TransGen (Digraph.Within g.dependenciesOf scope) n d ∧ n ∈ scope := by
    induction hnd using TransGen.head_induction_on with
    | single hnd =>
      have hn := hclosed _ _ hnd hd
      exact ⟨TransGen.single ⟨(hg.mem_dependenciesOf _ _).2 hnd, hn, hd⟩, hn⟩
    | head hnc _ ih =>
      have hn := hclosed _ _ hnc ih.2
      exact ⟨TransGen.head ⟨(hg.mem_dependenciesOf _ _).2 hnc, hn, ih.2⟩ ih.1, hn⟩
  exact hpath.1

/-- The order of a scope that is closed under what depends on it lists no node before one that it depends on,
in any number of steps. -/
theorem pairwise_transGen_orderWithin (hg : g.WellFormed) (hscope : scope.Nodup)
    (hclosed : ∀ n d, g.Depends n d → d ∈ scope → n ∈ scope) :
    (g.orderWithin scope).Pairwise fun a b => ¬ TransGen g.Depends a b := by
  have hsorted := Digraph.sorted_topologicalOrder (nodup_dependentsOf g) hg.mem_dependentsOf_iff hscope
  refine (hsorted.pairwise_transGen (hg.nodup_orderWithin hscope)).imp_of_mem fun _ hb hnot hab => ?_
  exact hnot (hg.transGen_within hclosed hab ((hg.mem_orderWithin hscope).1 hb).1)

/-! ## The order of the whole graph -/

/-- `Graph.evaluationOrder` lists exactly the nodes that reach no cycle. -/
theorem mem_evaluationOrder (hg : g.WellFormed) :
    n ∈ g.evaluationOrder ↔
      n ∈ g.names ∧ ∀ c, ReflTransGen g.Depends n c → ¬ TransGen g.Depends c c := by
  rw [evaluationOrder, hg.mem_orderWithin g.names_nodup, hg.within_names]

/-- The order is complete exactly if there is no cycle. -/
theorem evaluationOrder_complete_iff (hg : g.WellFormed) :
    (∀ n ∈ g.names, n ∈ g.evaluationOrder) ↔ ¬ HasCycle g.names g.edges.toList := by
  constructor
  · rintro hall ⟨c, hcycle⟩
    obtain ⟨d, hcd, -⟩ := TransGen.head'_iff.1 hcycle
    exact (hg.mem_evaluationOrder.1 (hall c hcd.2.1)).2 c ReflTransGen.refl hcycle
  · exact fun hacyclic n hn => hg.mem_evaluationOrder.2 ⟨hn, fun c _ hc => hacyclic ⟨c, hc⟩⟩

/-! ## The order of some names -/

/-- Flooding the graph from some names along dependents ends with all that depends on them. -/
theorem reaches_dependentClosure (hg : g.WellFormed) (names : List String) :
    Digraph.Flood.Reaches g.dependentsOf ⟨[], names.filter g.hasNode⟩
      ⟨g.dependentClosure names, []⟩ := by
  have hnodes : ∀ a b, Digraph.Arc g.dependentsOf a b → b ∈ g.names := fun a b hab =>
    ((hg.mem_dependentsOf a b).1 hab).2.1
  have hsize : g.names.length ≤ g.nodes.size := by rw [Graph.names, OrderedMap.length_keys]
  exact Digraph.Flood.reaches_closure hnodes (nodup_dependentsOf g) hsize fun m hm =>
    hasNode_iff.1 (List.mem_filter.1 hm).2

/-- What depends on a node of the closure is in the closure. -/
theorem mem_dependentClosure_of_depends (hg : g.WellFormed) (hnd : g.Depends n d)
    (hd : d ∈ g.dependentClosure names) : n ∈ g.dependentClosure names := by
  obtain ⟨m, hm, hname, hdm⟩ := hg.mem_dependentClosure.1 hd
  exact hg.mem_dependentClosure.2 ⟨m, hm, hname, hdm.head hnd⟩

/-- Without a cycle through the closure, its order is complete. -/
theorem evaluationOrderOf_of_acyclic (hg : g.WellFormed)
    (hacyclic : ∀ n ∈ g.dependentClosure names, ¬ TransGen g.Depends n n) :
    g.evaluationOrderOf names = g.orderWithin (g.dependentClosure names) ∧
      ∀ n, n ∈ g.orderWithin (g.dependentClosure names) ↔ n ∈ g.dependentClosure names := by
  have hscope := hg.nodup_dependentClosure names
  have hmem : ∀ n, n ∈ g.orderWithin (g.dependentClosure names) ↔
      n ∈ g.dependentClosure names := fun n => by
    rw [hg.mem_orderWithin hscope]
    refine and_iff_left fun c _ hcycle => ?_
    obtain ⟨b, hcb, -⟩ := TransGen.head'_iff.1 hcycle
    exact hacyclic c hcb.2.1 (TransGen.mono (fun _ _ h => hg.depends_of_within h) c c hcycle)
  have hperm := (List.perm_ext_iff_of_nodup (hg.nodup_orderWithin hscope) hscope).2 hmem
  exact ⟨if_pos hperm.length_eq, hmem⟩

/-- With a cycle through the closure, there is no order. -/
theorem evaluationOrderOf_of_cycle (hg : g.WellFormed) (hn : n ∈ g.dependentClosure names)
    (hcycle : TransGen g.Depends n n) : g.evaluationOrderOf names = [] := by
  have hscope := hg.nodup_dependentClosure names
  -- The cycle stays in the closure, which is closed under what depends on it.
  have hwithin : TransGen (Digraph.Within g.dependenciesOf (g.dependentClosure names)) n n :=
    hg.transGen_within (fun _ _ => hg.mem_dependentClosure_of_depends) hcycle hn
  have hleft : n ∉ g.orderWithin (g.dependentClosure names) := fun hmem =>
    ((hg.mem_orderWithin hscope).1 hmem).2 n ReflTransGen.refl hwithin
  refine if_neg fun hlength => hleft ?_
  -- An order as long as its scope would list all of it.
  have hsub : g.orderWithin (g.dependentClosure names) ⊆ g.dependentClosure names := fun m hm =>
    ((hg.mem_orderWithin hscope).1 hm).1
  have hperm := ((hg.nodup_orderWithin hscope).subperm hsub).perm_of_length_le hlength.ge
  exact hperm.mem_iff.2 hn

/-- The order of one name begins with it: nothing else in its closure can come first. -/
theorem head?_evaluationOrderFrom (hg : g.WellFormed) (hn : n ∈ g.names)
    (hacyclic : ∀ m ∈ g.dependentClosure [n], ¬ TransGen g.Depends m m) :
    (g.evaluationOrderFrom n).head? = some n := by
  obtain ⟨horder, hmem⟩ := hg.evaluationOrderOf_of_acyclic hacyclic
  have hself : n ∈ g.dependentClosure [n] :=
    hg.mem_dependentClosure.2 ⟨n, List.mem_singleton_self n, hn, ReflTransGen.refl⟩
  rw [evaluationOrderFrom, horder]
  match hlist : g.orderWithin (g.dependentClosure [n]) with
  | [] => exact absurd ((hmem n).2 hself) (by rw [hlist]; exact List.not_mem_nil)
  | m :: after =>
    obtain ⟨k, hk, -, hmk⟩ := hg.mem_dependentClosure.1 ((hmem m).1 (by rw [hlist]; simp))
    rw [List.mem_singleton] at hk
    subst hk
    rcases ReflTransGen.cases_head hmk with rfl | ⟨d, hmd, hdk⟩
    · rfl
    · -- Otherwise the first node would depend on one that comes before it.
      have hd : d ∈ g.dependentClosure [k] :=
        hg.mem_dependentClosure.2 ⟨k, List.mem_singleton_self k, hn, hdk⟩
      have hsplit : g.orderWithin (g.dependentClosure [k]) = [] ++ m :: after := hlist
      have hbefore := hg.mem_before_orderWithin (hg.nodup_dependentClosure [k]) hsplit hmd hd
      exact absurd hbefore List.not_mem_nil

end WellFormed

end Graph

namespace GraphSession

open Recalc.Graph Relation

/-- Whatever was done to a graph: counting down over all nodes ends, and the order that it ends with lists
exactly the nodes from which no cycle can be reached along dependencies, each once and after all of its
dependencies. So it lists all nodes exactly if the graph has no cycle. -/
theorem evaluationOrder_of_commands (commands : List GraphCommand) :
    let g := (performAll {} commands).value.graph
    (∃ counts, Digraph.Countdown.Reaches g.dependentsOf (.start g.dependenciesOf g.names)
      ⟨counts, [], g.evaluationOrder⟩) ∧
    g.evaluationOrder.Nodup ∧
    (∀ n, n ∈ g.evaluationOrder ↔
      n ∈ g.names ∧ ∀ c, ReflTransGen g.Depends n c → ¬ TransGen g.Depends c c) ∧
    (∀ before n after, g.evaluationOrder = before ++ n :: after → ∀ d, g.Depends n d → d ∈ before) ∧
    ((∀ n ∈ g.names, n ∈ g.evaluationOrder) ↔ ¬ HasCycle g.names g.edges.toList) := by
  intro g
  have hg : g.WellFormed := (sound_of_commands commands).wellFormed
  refine ⟨hg.reaches_orderWithin g.names_nodup, hg.nodup_orderWithin g.names_nodup,
    fun n => hg.mem_evaluationOrder, fun before n after hsplit d hnd => ?_,
    hg.evaluationOrder_complete_iff⟩
  exact hg.mem_before_orderWithin g.names_nodup hsplit hnd hnd.2.2

/-- A cycle of two nodes, one behind it, and one that it leads to, inside a batch. -/
def tangle : List GraphCommand :=
  [.beginBatch, .addNodes ["c", "a", "b", "e", "d"],
    .addEdges [⟨"a", "b"⟩, ⟨"b", "a"⟩, ⟨"c", "a"⟩, ⟨"b", "d"⟩, ⟨"e", "d"⟩]]

/-- What the cycle leads to and what depends only on that is listed. -/
theorem evaluationOrder_of_commands_tangle :
    let g := (performAll {} tangle).value.graph
    g.evaluationOrder = ["d", "e"] ∧
      (∃ counts, Digraph.Countdown.Reaches g.dependentsOf (.start g.dependenciesOf g.names)
        ⟨counts, [], ["d", "e"]⟩) ∧
      (∀ c, ReflTransGen g.Depends "e" c → ¬ TransGen g.Depends c c) ∧
      "d" ∈ ["d"] ∧ HasCycle g.names g.edges.toList := by
  intro g
  obtain ⟨hreaches, -, hmem, hafter, hall⟩ := evaluationOrder_of_commands tangle
  have horder : g.evaluationOrder = ["d", "e"] := by decide
  have hde : g.Depends "e" "d" := by decide
  have he : "e" ∈ g.evaluationOrder := by decide
  refine ⟨horder, horder ▸ hreaches, ((hmem "e").1 he).2, hafter ["d"] "e" [] horder "d" hde, ?_⟩
  by_contra hacyclic
  exact absurd (hall.2 hacyclic "a" (by decide)) (by decide)

/-- Whatever was done to a graph and whatever names are given: flooding the graph from them ends, and so
does counting down over what the flood covers. If no cycle runs through what depends on the existing
names, the order lists that, each node once and after those of its dependencies that are part of it; if
one does, the order is empty. In a graph without cycles, the order of an existing name begins with it. -/
theorem evaluationOrderOf_of_commands (commands : List GraphCommand) (names : List String) :
    let g := (performAll {} commands).value.graph
    let Covered := fun n => ∃ m ∈ names, m ∈ g.names ∧ ReflTransGen g.Depends n m
    (Digraph.Flood.Reaches g.dependentsOf ⟨[], names.filter g.hasNode⟩ ⟨g.dependentClosure names, []⟩ ∧
      ∃ counts, Digraph.Countdown.Reaches g.dependentsOf
        (.start g.dependenciesOf (g.dependentClosure names))
        ⟨counts, [], g.orderWithin (g.dependentClosure names)⟩) ∧
    ((∀ n, Covered n → ¬ TransGen g.Depends n n) →
      (g.evaluationOrderOf names).Nodup ∧
      (∀ n, n ∈ g.evaluationOrderOf names ↔ Covered n) ∧
      ∀ before n after, g.evaluationOrderOf names = before ++ n :: after →
        ∀ d, g.Depends n d → Covered d → d ∈ before) ∧
    ((∃ n, Covered n ∧ TransGen g.Depends n n) → g.evaluationOrderOf names = []) ∧
    ∀ n ∈ g.names, ¬ HasCycle g.names g.edges.toList → (g.evaluationOrderFrom n).head? = some n := by
  intro g Covered
  have hg : g.WellFormed := (sound_of_commands commands).wellFormed
  have hscope := hg.nodup_dependentClosure names
  have hcovered : ∀ n, n ∈ g.dependentClosure names ↔ Covered n := fun n => hg.mem_dependentClosure
  refine ⟨⟨hg.reaches_dependentClosure names, hg.reaches_orderWithin hscope⟩, fun hacyclic => ?_, ?_,
    fun n hn hacyclic => ?_⟩
  · obtain ⟨horder, hmem⟩ :=
      hg.evaluationOrderOf_of_acyclic fun n hn => hacyclic n ((hcovered n).1 hn)
    rw [horder]
    refine ⟨hg.nodup_orderWithin hscope, fun n => (hmem n).trans (hcovered n), ?_⟩
    intro before n after hsplit d hnd hd
    exact hg.mem_before_orderWithin hscope hsplit hnd ((hcovered d).2 hd)
  · rintro ⟨n, hn, hcycle⟩
    exact hg.evaluationOrderOf_of_cycle ((hcovered n).2 hn) hcycle
  · exact hg.head?_evaluationOrderFrom hn fun m _ hm => hacyclic ⟨m, hm⟩

/-- Three nodes in a row, the first one read by the second one and that by the third one. -/
def row : List GraphCommand := [.addNodes ["c", "a", "b"], .addEdges [⟨"b", "a"⟩, ⟨"c", "b"⟩]]

/-- In a row, a node that is given twice and a name without a node cover the end of the row. In the
tangle, the node that the cycle leads to covers the cycle. -/
theorem evaluationOrderOf_of_commands_row :
    let g := (performAll {} row).value.graph
    let h := (performAll {} tangle).value.graph
    (g.evaluationOrderOf ["b", "x", "b"] = ["b", "c"] ∧ (["b", "c"] : List String).Nodup ∧ "b" ∈ ["b"]) ∧
      h.evaluationOrderOf ["d"] = [] ∧ (g.evaluationOrderFrom "a").head? = some "a" := by
  intro g h
  have hacyclic : ¬ HasCycle g.names g.edges.toList := (sound_of_commands row).not_hasCycle (by decide)
  obtain ⟨-, hrow, -, hfrom⟩ := evaluationOrderOf_of_commands row ["b", "x", "b"]
  obtain ⟨-, -, htangle, -⟩ := evaluationOrderOf_of_commands tangle ["d"]
  have horder : g.evaluationOrderOf ["b", "x", "b"] = ["b", "c"] := by decide
  obtain ⟨hnodup, -, hafter⟩ := hrow fun n _ hn => hacyclic ⟨n, hn⟩
  have hcb : g.Depends "c" "b" := by decide
  refine ⟨⟨horder, horder ▸ hnodup, hafter ["b"] "c" [] horder "b" hcb ?_⟩, htangle ?_, ?_⟩
  · exact ⟨"b", by simp, by decide, ReflTransGen.refl⟩
  · -- The node `b` of the cycle depends on `d`.
    have hbd : h.Depends "b" "d" := by decide
    have hba : h.Depends "b" "a" := by decide
    have hab : h.Depends "a" "b" := by decide
    exact ⟨"b", ⟨"d", by simp, by decide, ReflTransGen.single hbd⟩, .tail (.single hba) hab⟩
  · exact hfrom "a" (by decide) hacyclic

end GraphSession

end Recalc
