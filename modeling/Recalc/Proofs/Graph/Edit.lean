import Mathlib.Data.List.Basic
import Recalc.Graph.Edit
import Recalc.Proofs.Graph.Cycle
import Recalc.Proofs.Graph.Undo

/-!
# Single additions and removals

What the four structural operations come down to: nothing, if there is nothing to do; otherwise an
elementary change, which inside a batch is entered into the journal, and which outside a batch is
kept or, if it closes a cycle, taken back.

An addition taken back leaves no trace, the order of links included: a new link is the newest of its
set, so that unlinking it restores the set as it was (`dropEdge_storeEdge`, `detach_attach`).
-/

namespace Recalc.Graph

variable {g : Graph}

/-! ## Settling an addition -/

section Settle

variable {c : Change} {takeBack : Graph → Traced LinkSignal Graph}

/-- Inside a batch an addition is kept and entered into the journal, cycle or not. -/
theorem value_settle_of_inBatch (hb : g.inBatch = true) :
    (g.settle c takeBack).value = (g.record c, .ok true) := by
  rw [settle, if_pos hb]
  rfl

/-- Outside a batch an addition that closes a cycle is taken back, and the error holds the path found. -/
theorem value_settle_of_cycle (hb : g.inBatch = false) {path : List String}
    (hpath : g.findCycle? = some path) :
    (g.settle c takeBack).value = ((takeBack g).value, .error ⟨path⟩) := by
  rw [settle, hb, if_neg Bool.false_ne_true, hpath]
  rfl

/-- Outside a batch an addition that closes no cycle is kept. -/
theorem value_settle_of_acyclic (hb : g.inBatch = false) (hnone : g.findCycle? = none) :
    (g.settle c takeBack).value = (g, .ok true) := by
  rw [settle, hb, if_neg Bool.false_ne_true, hnone]
  rfl

/-- Settling refuses exactly outside a batch and in the presence of a cycle. -/
theorem WellFormed.settle_refuses_iff (hg : g.WellFormed) :
    (∃ err, (g.settle c takeBack).value.2 = .error err) ↔
      g.inBatch = false ∧ HasCycle g.names g.edges.toList := by
  rw [← hg.isSome_findCycle?_iff]
  cases hb : g.inBatch with
  | true =>
    rw [value_settle_of_inBatch hb]
    exact ⟨fun ⟨_, h⟩ => (nomatch h), fun h => absurd h.1 (by simp)⟩
  | false =>
    cases hpath : g.findCycle? with
    | none =>
      rw [value_settle_of_acyclic hb hpath]
      exact ⟨fun ⟨_, h⟩ => (nomatch h), fun ⟨_, _, h⟩ => (nomatch h)⟩
    | some path =>
      rw [value_settle_of_cycle hb hpath]
      exact ⟨fun _ => ⟨rfl, path, rfl⟩, fun _ => ⟨⟨path⟩, rfl⟩⟩

/-- Outside a batch, settling ends without a cycle or takes the addition back. -/
theorem WellFormed.value_settle_cases (hg : g.WellFormed) (hb : g.inBatch = false) :
    ((g.settle c takeBack).value = (g, .ok true) ∧ ¬ HasCycle g.names g.edges.toList) ∨
      ∃ err, (g.settle c takeBack).value = ((takeBack g).value, .error err) := by
  cases hpath : g.findCycle? with
  | none => exact Or.inl ⟨value_settle_of_acyclic hb hpath, hg.findCycle?_eq_none_iff.1 hpath⟩
  | some path => exact Or.inr ⟨⟨path⟩, value_settle_of_cycle hb hpath⟩

end Settle

/-! ## The operations -/

/-- Adding a node that exists changes nothing and signals nothing. -/
theorem addNode_of_mem {name : String} (hname : name ∈ g.names) :
    g.addNode name = pure (g, .ok false) := by
  rw [addNode, if_pos (hasNode_iff.2 hname)]

/-- Adding a new node attaches it at the end, clean and without a stamp, and settles the addition. -/
theorem addNode_of_not_mem {name : String} (hname : name ∉ g.names) :
    g.addNode name =
      g.attach g.nodes.size name {} >>= fun g' => g'.settle (.nodeAdded name) (·.detach name) := by
  rw [addNode, if_neg fun h => hname (hasNode_iff.1 h)]

/-- The value of `Graph.addNode` for a new name, without the signals. -/
theorem value_addNode {name : String} (hname : name ∉ g.names) :
    (g.addNode name).value =
      ((g.attach g.nodes.size name {}).value.settle (.nodeAdded name) (·.detach name)).value := by
  rw [addNode_of_not_mem hname, Traced.value_bind]

/-- Adding an edge that is stored changes nothing and signals nothing. -/
theorem addEdge_of_mem {e : Edge} (he : e ∈ g.edges.toList) :
    g.addEdge e = pure (g, .ok false) := by
  rw [addEdge, EdgeStore.insert_of_mem he]

/-- Adding a new edge stores it and settles the addition. -/
theorem addEdge_of_not_mem {e : Edge} (he : e ∉ g.edges.toList) :
    g.addEdge e =
      g.storeEdge e >>= fun g' => g'.settle (.edgeAdded e) (·.dropEdge e) := by
  have hflag := EdgeStore.snd_insert.2 he
  unfold addEdge storeEdge
  generalize g.edges.insert e = inserted at hflag ⊢
  obtain ⟨edges, _⟩ := inserted
  subst hflag
  rfl

/-- The value of `Graph.addEdge` for a new edge, without the signals. -/
theorem value_addEdge {e : Edge} (he : e ∉ g.edges.toList) :
    (g.addEdge e).value =
      ((g.storeEdge e).value.settle (.edgeAdded e) (·.dropEdge e)).value := by
  rw [addEdge_of_not_mem he, Traced.value_bind]

/-- Removing a missing node changes nothing and signals nothing. -/
theorem removeNode_of_not_mem {name : String} (hname : name ∉ g.names) :
    g.removeNode name = pure (g, false) := by
  rw [removeNode, node?_eq_none.2 hname]

/-- A node that exists has a place in the order. -/
theorem indexOf?_of_mem {name : String} (hname : name ∈ g.names) :
    ∃ place, g.nodes.indexOf? name = some place := by
  rw [← Option.isSome_iff_exists]
  exact List.isSome_idxOf?.2 hname

/-- Removing a node detaches it and enters its record and its place into the journal. -/
theorem removeNode_eq {name : String} {node : Node} {place : Nat}
    (hnode : g.node? name = some node) (hplace : g.nodes.indexOf? name = some place) :
    g.removeNode name =
      (fun g' => (g'.record (.nodeRemoved name place node), true)) <$> g.detach name := by
  rw [removeNode, hnode, hplace, map_eq_pure_bind]

/-- The value of `Graph.removeNode` for an existing node, without the signals. -/
theorem value_removeNode {name : String} {node : Node} {place : Nat}
    (hnode : g.node? name = some node) (hplace : g.nodes.indexOf? name = some place) :
    (g.removeNode name).value =
      ((g.detach name).value.record (.nodeRemoved name place node), true) := by
  rw [removeNode_eq hnode hplace, Traced.value_map]

/-- Removing an edge that is not stored changes nothing and signals nothing. -/
theorem removeEdge_of_not_mem {e : Edge} (he : e ∉ g.edges.toList) :
    g.removeEdge e = pure (g, false) := by
  rw [removeEdge, EdgeStore.erase_of_not_mem he]

/-- Removing a stored edge drops it and enters it into the journal. -/
theorem removeEdge_of_mem {e : Edge} (he : e ∈ g.edges.toList) :
    g.removeEdge e = (fun g' => (g'.record (.edgeRemoved e), true)) <$> g.dropEdge e := by
  have hflag := EdgeStore.snd_erase.2 he
  unfold removeEdge dropEdge
  generalize g.edges.erase e = erased at hflag ⊢
  obtain ⟨edges, _⟩ := erased
  subst hflag
  rw [map_eq_pure_bind]

/-- The value of `Graph.removeEdge` for a stored edge, without the signals. -/
theorem value_removeEdge {e : Edge} (he : e ∈ g.edges.toList) :
    (g.removeEdge e).value = ((g.dropEdge e).value.record (.edgeRemoved e), true) := by
  rw [removeEdge_of_mem he, Traced.value_map]

/-! ## Taking an addition back -/

/-- Storing an edge and dropping it again gives the graph back. -/
theorem WellFormed.dropEdge_storeEdge (hg : g.WellFormed) {e : Edge} (he : e ∉ g.edges.toList) :
    ((g.storeEdge e).value.dropEdge e).value = g := by
  have hstored := sameFrame_storeEdge e g
  have hdropped := sameFrame_dropEdge e (g.storeEdge e).value
  refine ext_view ?_ ?_ (fun n => ?_) (fun n => ?_) (fun n => ?_) ?_ ?_
  · rw [names_dropEdge, names_storeEdge]
  · rw [hdropped.edges, hstored.edges]
    exact hg.indexed.erase_insert he
  · have hkeep : (g.dependenciesOf n).filter (fun t => ⟨n, t⟩ ≠ e) = g.dependenciesOf n :=
      List.filter_eq_self.2 fun t ht => by
        simpa using fun h : ⟨n, t⟩ = e => he (h ▸ ((hg.mem_dependenciesOf n t).1 ht).1)
    rw [Graph.dropEdge, dependenciesOf_unlink]
    show ((g.storeEdge e).value.dependenciesOf n).filter _ = _
    rw [Graph.storeEdge, dependenciesOf_link]
    split_ifs with hnew
    · rw [List.filter_append]
      show (g.dependenciesOf n).filter _ ++ _ = _
      rw [hkeep, hnew.1]
      simp
    · exact hkeep
  · have hkeep : (g.dependentsOf n).filter (fun f => ⟨f, n⟩ ≠ e) = g.dependentsOf n :=
      List.filter_eq_self.2 fun f hf => by
        simpa using fun h : ⟨f, n⟩ = e => he (h ▸ ((hg.mem_dependentsOf n f).1 hf).1)
    rw [Graph.dropEdge, dependentsOf_unlink]
    show ((g.storeEdge e).value.dependentsOf n).filter _ = _
    rw [Graph.storeEdge, dependentsOf_link]
    split_ifs with hnew
    · rw [List.filter_append]
      show (g.dependentsOf n).filter _ ++ _ = _
      rw [hkeep, hnew.1]
      simp
    · exact hkeep
  · rw [mark?_dropEdge, mark?_storeEdge]
  · rw [hdropped.journal, hstored.journal]
  · rw [hdropped.clock, hstored.clock]

/-- Linking edges adds nothing but targets of those edges, at the end of the set. -/
theorem filter_dependenciesOf_linkAll (es : List Edge) (g : Graph) (n : String) (p : String → Bool)
    (hp : ∀ e ∈ es, e.source = n → p e.target = false) :
    ((es.foldlM link g).value.dependenciesOf n).filter p = (g.dependenciesOf n).filter p := by
  induction es generalizing g with
  | nil => rfl
  | cons e es ih =>
    rw [List.foldlM_cons, Traced.value_bind, ih _ fun f hf => hp f (List.mem_cons_of_mem _ hf),
      dependenciesOf_link]
    split_ifs with hnew
    · rw [List.filter_append, List.filter_cons_of_neg (by simp [hp e List.mem_cons_self hnew.1.symm]),
        List.filter_nil, List.append_nil]
    · rfl

/-- Linking edges whose new dependents a predicate rejects leaves the dependents it accepts, in order. -/
theorem filter_dependentsOf_linkAll (es : List Edge) (g : Graph) (n : String) (p : String → Bool)
    (hp : ∀ e ∈ es, e.target = n → p e.source = false) :
    ((es.foldlM link g).value.dependentsOf n).filter p = (g.dependentsOf n).filter p := by
  induction es generalizing g with
  | nil => rfl
  | cons e es ih =>
    rw [List.foldlM_cons, Traced.value_bind, ih _ fun f hf => hp f (List.mem_cons_of_mem _ hf),
      dependentsOf_link]
    split_ifs with hnew
    · rw [List.filter_append, List.filter_cons_of_neg (by simp [hp e List.mem_cons_self hnew.1.symm]),
        List.filter_nil, List.append_nil]
    · rfl

/-- Away from a node that goes, only the links along its edges go. -/
theorem dependenciesOf_detach {name n : String} (hname : name ∈ g.names) (hn : n ≠ name) :
    (g.detach name).value.dependenciesOf n =
      (g.dependenciesOf n).filter fun t => ⟨n, t⟩ ∉ g.edgesAt name := by
  have hrest : dependenciesOf { g with nodes := g.nodes.erase name } n = g.dependenciesOf n := by
    simp [dependenciesOf, node?, hn]
  rw [detach_eq name hname, dependenciesOf_unlinkAll, hrest]

/-- Away from a node that goes, only the dependents along its edges go. -/
theorem dependentsOf_detach {name n : String} (hname : name ∈ g.names) (hn : n ≠ name) :
    (g.detach name).value.dependentsOf n =
      (g.dependentsOf n).filter fun f => ⟨f, n⟩ ∉ g.edgesAt name := by
  have hrest : dependentsOf { g with nodes := g.nodes.erase name } n = g.dependentsOf n := by
    simp [dependentsOf, node?, hn]
  rw [detach_eq name hname, dependentsOf_unlinkAll, hrest]

/-- Attaching a node and detaching it again gives the graph back. -/
theorem WellFormed.detach_attach (hg : g.WellFormed) {name : String} (hname : name ∉ g.names)
    (place : Nat) (node : Node) :
    ((g.attach place name node).value.detach name).value = g := by
  have hback : Alike True ((g.attach place name node).value.detach name).value g :=
    undo_attach hname place node
  have hmem : name ∈ (g.attach place name node).value.names :=
    (mem_names_attach place name g node).2 (Or.inr rfl)
  have hat : (g.attach place name node).value.edgesAt name = g.edgesAt name := by
    rw [edgesAt, edges_attach, edgesAt]
  have hgone : name ∉ ((g.attach place name node).value.detach name).value.names :=
    hback.names ▸ hname
  refine ext_view hback.names ?_ (fun n => ?_) (fun n => ?_) (hback.mark? trivial) ?_ ?_
  · rw [edges_detach, edges_attach]
  · by_cases hn : n = name
    · rw [hn, dependenciesOf_of_not_mem hname, dependenciesOf_of_not_mem hgone]
    · have hstart : dependenciesOf { g with nodes := g.nodes.insertAt place name node } n =
          g.dependenciesOf n := by
        simp [dependenciesOf, node?, OrderedMap.get?_insertAt, hn]
      rw [dependenciesOf_detach hmem hn, hat, Graph.attach, filter_dependenciesOf_linkAll, hstart,
        List.filter_eq_self]
      · intro t ht
        have ht' : t ≠ name := fun h => hname (h ▸ ((hg.mem_dependenciesOf n t).1 ht).2.2)
        simp [mem_edgesAt hg.indexed, hn, ht']
      · rintro ⟨a, b⟩ he rfl
        simpa using he
  · by_cases hn : n = name
    · rw [hn, dependentsOf_of_not_mem hname, dependentsOf_of_not_mem hgone]
    · have hstart : dependentsOf { g with nodes := g.nodes.insertAt place name node } n =
          g.dependentsOf n := by
        simp [dependentsOf, node?, OrderedMap.get?_insertAt, hn]
      rw [dependentsOf_detach hmem hn, hat, Graph.attach, filter_dependentsOf_linkAll, hstart,
        List.filter_eq_self]
      · intro f hf
        have hf' : f ≠ name := fun h => hname (h ▸ ((hg.mem_dependentsOf n f).1 hf).2.1)
        simp [mem_edgesAt hg.indexed, hn, hf']
      · rintro ⟨a, b⟩ he rfl
        simpa using he
  · rw [journal_detach, journal_attach]
  · rw [clock_detach, clock_attach]

end Recalc.Graph
