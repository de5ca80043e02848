import Recalc.Proofs.Graph.CycleSearch

/-!
# What a refusal blames

An addition is refused with the first cycle that a search of the whole graph meets, and the search knows
nothing of what was added. But there was no cycle before, so a cycle of the new graph has two neighbours
that did not depend on each other (`Circuit.exists_new`). One edge more makes only its own ends
neighbours; one node more makes only neighbours of itself.
-/

namespace Recalc

/-! ## Circuits -/

namespace Digraph

open Relation

variable {α : Type} {r r' : α → α → Prop} {walk : List α}

/-- A walk along a relation that ends where it began. -/
structure Circuit (r : α → α → Prop) (walk : List α) : Prop where
  two_le_length : 2 ≤ walk.length
  head?_eq_getLast? : walk.head? = walk.getLast?
  isChain : walk.IsChain r

/-- A circuit along a relation is one along every larger relation. -/
theorem Circuit.mono (hsub : ∀ a b, r a b → r' a b) (h : Circuit r walk) : Circuit r' walk :=
  ⟨h.two_le_length, h.head?_eq_getLast?, h.isChain.imp hsub⟩

/-- A circuit returns to its first node. -/
theorem Circuit.exists_transGen (h : Circuit r walk) : ∃ a, TransGen r a a := by
  obtain ⟨hlength, hclosed, hchain⟩ := h
  match walk, hlength with
  | a :: b :: rest, _ =>
    obtain ⟨inner, c, hsplit⟩ := (List.eq_nil_or_concat (b :: rest)).resolve_left (List.cons_ne_nil b rest)
    rw [hsplit, List.concat_eq_append, ← List.cons_append] at hclosed hchain
    obtain rfl : a = c := by rwa [List.getLast?_concat, List.cons_append, List.head?_cons,
      Option.some_inj] at hclosed
    exact ⟨a, transGen_of_isChain hchain⟩

/-- A cycle of a successor function is a circuit along its arcs. -/
theorem IsCycle.circuit {next : α → List α} (h : IsCycle next walk) : Circuit (Arc next) walk :=
  ⟨h.two_le_length, h.head?_eq_getLast?, h.isChain⟩

/-- Where a relation has no circuit, a circuit of another one has neighbours that only the other one
relates. -/
theorem Circuit.exists_new (h : Circuit r walk) (hacyclic : ∀ a, ¬ TransGen r' a a) :
    ∃ a b, [a, b] <:+: walk ∧ r a b ∧ ¬ r' a b := by
  by_contra hold
  push Not at hold
  have hchain : walk.IsChain r' := by
    refine List.isChain_iff_forall_rel_of_append_cons_cons.2 fun a b before after hsplit => ?_
    have hab : r a b := List.isChain_iff_forall_rel_of_append_cons_cons.1 h.isChain hsplit
    exact hold a b ⟨before, after, by simp [hsplit]⟩ hab
  have hcircuit : Circuit r' walk := ⟨h.two_le_length, h.head?_eq_getLast?, hchain⟩
  obtain ⟨a, ha⟩ := hcircuit.exists_transGen
  exact hacyclic a ha

end Digraph

/-! ## Additions to a graph -/

namespace Graph

open Recalc.Digraph

variable {g : Graph} {err : CycleError}

/-- The path that a well-formed graph answers leads along its dependencies. -/
theorem WellFormed.circuit_of_findCycle? (hg : g.WellFormed) {path : List String}
    (hpath : g.findCycle? = some path) : Circuit g.Depends path := by
  have hcircuit := (hg.isCycle_of_findCycle? hpath).circuit
  rwa [hg.arc_eq] at hcircuit

/-- What settling refuses, it refuses with the path that the search answers. -/
theorem findCycle?_of_settle {c : Change} {takeBack : Graph → Traced LinkSignal Graph}
    (herr : (g.settle c takeBack).value.2 = .error err) : g.findCycle? = some err.path := by
  cases hb : g.inBatch with
  | true =>
    rw [value_settle_of_inBatch hb] at herr
    cases herr
  | false =>
    cases hpath : g.findCycle? with
    | none =>
      rw [value_settle_of_acyclic hb hpath] at herr
      cases herr
    | some path =>
      rw [value_settle_of_cycle hb hpath] at herr
      cases herr
      rfl

/-- An edge that is refused is blamed: the path steps along it. -/
theorem Sound.blames_edge (hg : g.Sound) (hb : g.inBatch = false) {e : Edge}
    (herr : (g.addEdge e).value.2 = .error err) :
    [e.source, e.target] <:+: err.path ∧ Circuit (DependsIn g.names (g.edges.toList ++ [e])) err.path := by
  by_cases he : e ∈ g.edges.toList
  · rw [addEdge_of_mem he] at herr
    cases herr
  · rw [value_addEdge he] at herr
    have hcircuit : Circuit (DependsIn g.names (g.edges.toList ++ [e])) err.path := by
      have h := (hg.wellFormed.storeEdge e).circuit_of_findCycle? (findCycle?_of_settle herr)
      rwa [Depends, names_storeEdge, (sameFrame_storeEdge e g).edges, EdgeStore.toList_insert he] at h
    obtain ⟨a, b, hneighbours, hnew, hold⟩ :=
      hcircuit.exists_new fun a ha => hg.not_hasCycle hb ⟨a, ha⟩
    -- Two names that depend on each other by the new edge only are its ends.
    have hedge : (⟨a, b⟩ : Edge) = e := by
      rcases List.mem_append.1 hnew.1 with hmem | hmem
      · exact absurd ⟨hmem, hnew.2⟩ hold
      · exact List.mem_singleton.1 hmem
    subst hedge
    exact ⟨hneighbours, hcircuit⟩

/-- A node that is refused is blamed: the path comes to it. -/
theorem Sound.blames_node (hg : g.Sound) (hb : g.inBatch = false) {name : String}
    (herr : (g.addNode name).value.2 = .error err) :
    name ∈ err.path ∧ Circuit (DependsIn (g.names ++ [name]) g.edges.toList) err.path := by
  by_cases hname : name ∈ g.names
  · rw [addNode_of_mem hname] at herr
    cases herr
  · rw [value_addNode hname] at herr
    have hcircuit : Circuit (DependsIn (g.names ++ [name]) g.edges.toList) err.path := by
      have h := (hg.wellFormed.attach g.nodes.size name _ _).circuit_of_findCycle?
        (findCycle?_of_settle herr)
      rwa [Depends, names_attach_size hname, edges_attach] at h
    obtain ⟨a, b, hneighbours, hnew, hold⟩ :=
      hcircuit.exists_new fun a ha => hg.not_hasCycle hb ⟨a, ha⟩
    refine ⟨?_, hcircuit⟩
    by_contra hout
    -- Names other than the new one are those of nodes that were there before.
    have hkept : ∀ n, n ∈ [a, b] → n ∈ g.names ++ [name] → n ∈ g.names := fun n hn hmem => by
      refine (List.mem_append.1 hmem).resolve_right fun hlast => hout ?_
      rw [List.mem_singleton] at hlast
      exact hlast ▸ hneighbours.subset hn
    exact hold ⟨hnew.1, hkept a (by simp) hnew.2.1, hkept b (by simp) hnew.2.2⟩

end Graph

end Recalc
