import Recalc.Proofs.Graph.Batch

/-!
# What the operations do to names, edges and marks

Removals have the same effect wherever they are made. An addition is followed here inside a batch,
where it is never refused. Each fact is about one operation and one view of the graph; the facts about
operations in the plural follow by going through the list.
-/

namespace Recalc.Graph

variable {g : Graph}

/-! ## Removals -/

/-- `Graph.removeNode` takes one name out and keeps the order of the others, in a batch or not. -/
theorem names_removeNode (g : Graph) (name : String) :
    (g.removeNode name).value.1.names = g.names.filter (· ≠ name) := by
  by_cases hname : name ∈ g.names
  · obtain ⟨node, hnode⟩ := mem_names_iff.1 hname
    obtain ⟨place, hplace⟩ := indexOf?_of_mem hname
    rw [value_removeNode hnode hplace]
    exact names_detach name g
  · rw [removeNode_of_not_mem hname, eq_comm]
    exact List.filter_eq_self.2 fun n hn => by simpa using fun h : n = name => hname (h ▸ hn)

/-- `Graph.removeNode` leaves the stored edges of the node for when it comes back. -/
theorem edges_removeNode (g : Graph) (name : String) :
    (g.removeNode name).value.1.edges = g.edges := by
  by_cases hname : name ∈ g.names
  · obtain ⟨node, hnode⟩ := mem_names_iff.1 hname
    obtain ⟨place, hplace⟩ := indexOf?_of_mem hname
    rw [value_removeNode hnode hplace]
    exact edges_detach name g
  · rw [removeNode_of_not_mem hname]
    rfl

/-- `Graph.removeNode` forgets the mark of the node it takes and of no other. -/
theorem mark?_removeNode (g : Graph) (name n : String) :
    (g.removeNode name).value.1.mark? n = if n = name then none else g.mark? n := by
  by_cases hname : name ∈ g.names
  · obtain ⟨node, hnode⟩ := mem_names_iff.1 hname
    obtain ⟨place, hplace⟩ := indexOf?_of_mem hname
    rw [value_removeNode hnode hplace]
    exact mark?_detach name g n
  · rw [removeNode_of_not_mem hname]
    split_ifs with hn
    · exact mark?_eq_none.2 (hn ▸ hname)
    · rfl

/-- After `Graph.removeEdge` the stored edges are the old ones without the one given. -/
theorem mem_edges_removeEdge (g : Graph) (e f : Edge) :
    f ∈ (g.removeEdge e).value.1.edges.toList ↔ f ∈ g.edges.toList ∧ f ≠ e := by
  by_cases he : e ∈ g.edges.toList
  · rw [value_removeEdge he]
    exact mem_edges_dropEdge e g f
  · rw [removeEdge_of_not_mem he]
    exact ⟨fun hf => ⟨hf, fun h => he (h ▸ hf)⟩, And.left⟩

theorem names_removeEdge (g : Graph) (e : Edge) : (g.removeEdge e).value.1.names = g.names := by
  by_cases he : e ∈ g.edges.toList
  · rw [value_removeEdge he]
    exact names_dropEdge e g
  · rw [removeEdge_of_not_mem he]
    rfl

theorem mark?_removeEdge (g : Graph) (e : Edge) (n : String) :
    (g.removeEdge e).value.1.mark? n = g.mark? n := by
  by_cases he : e ∈ g.edges.toList
  · rw [value_removeEdge he]
    exact mark?_dropEdge e g n
  · rw [removeEdge_of_not_mem he]
    rfl

/-- `Graph.removeEdges` removes the first edge and goes on from there. -/
theorem removeEdges_cons (g : Graph) (e : Edge) (es : List Edge) :
    (g.removeEdges (e :: es)).value.1 = ((g.removeEdge e).value.1.removeEdges es).value.1 :=
  removeAll_cons removeEdge g e es

/-- After `Graph.removeEdges` the stored edges are the old ones without those given. -/
theorem mem_edges_removeEdges (g : Graph) (es : List Edge) (f : Edge) :
    f ∈ (g.removeEdges es).value.1.edges.toList ↔ f ∈ g.edges.toList ∧ f ∉ es := by
  induction es generalizing g with
  | nil => simp [removeEdges, removeAll]
  | cons e es ih =>
    rw [removeEdges_cons, ih, mem_edges_removeEdge, List.mem_cons, not_or, and_assoc]

theorem names_removeEdges (g : Graph) (es : List Edge) :
    (g.removeEdges es).value.1.names = g.names :=
  removeAll_induction (P := fun h => h.names = g.names)
    (fun h e hh => (names_removeEdge h e).trans hh) es rfl

theorem mark?_removeEdges (g : Graph) (es : List Edge) (n : String) :
    (g.removeEdges es).value.1.mark? n = g.mark? n :=
  removeAll_induction (P := fun h => h.mark? n = g.mark? n)
    (fun h e hh => (mark?_removeEdge h e n).trans hh) es rfl

/-! ## Additions inside a batch -/

/-- Inside a batch `Graph.addNode` always succeeds: the names are the old ones and the one given. -/
theorem mem_names_addNode (hb : g.inBatch = true) (name n : String) :
    n ∈ (g.addNode name).value.1.names ↔ n ∈ g.names ∨ n = name := by
  by_cases hname : name ∈ g.names
  · rw [addNode_of_mem hname]
    exact ⟨Or.inl, fun h => h.elim id fun hn => hn ▸ hname⟩
  · rw [value_addNode hname, value_settle_of_inBatch (by rw [inBatch, journal_attach]; exact hb)]
    exact mem_names_attach _ name g {}

/-- Inside a batch `Graph.addNode` stores no edge. -/
theorem edges_addNode (hb : g.inBatch = true) (name : String) :
    (g.addNode name).value.1.edges = g.edges := by
  by_cases hname : name ∈ g.names
  · rw [addNode_of_mem hname]
    rfl
  · rw [value_addNode hname, value_settle_of_inBatch (by rw [inBatch, journal_attach]; exact hb)]
    exact edges_attach _ name g {}

/-- Inside a batch `Graph.addNode` creates a clean node without a stamp and leaves every other mark. -/
theorem mark?_addNode (hb : g.inBatch = true) (name n : String) :
    (g.addNode name).value.1.mark? n =
      if n = name ∧ name ∉ g.names then some (false, Stamp.never) else g.mark? n := by
  by_cases hname : name ∈ g.names
  · rw [addNode_of_mem hname, if_neg fun h => h.2 hname]
    rfl
  · rw [value_addNode hname, value_settle_of_inBatch (by rw [inBatch, journal_attach]; exact hb)]
    simp only [hname, not_false_eq_true, and_true]
    exact mark?_attach _ name g {} n

/-- Inside a batch `Graph.addEdge` always succeeds: the stored edges are the old ones and the one given. -/
theorem mem_edges_addEdge (hb : g.inBatch = true) (e f : Edge) :
    f ∈ (g.addEdge e).value.1.edges.toList ↔ f ∈ g.edges.toList ∨ f = e := by
  by_cases he : e ∈ g.edges.toList
  · rw [addEdge_of_mem he]
    exact ⟨Or.inl, fun h => h.elim id fun hf => hf ▸ he⟩
  · have hb' : (g.storeEdge e).value.inBatch = true := by
      rw [inBatch, (sameFrame_storeEdge e g).journal]
      exact hb
    rw [value_addEdge he, value_settle_of_inBatch hb']
    exact mem_edges_storeEdge e g f

/-- Inside a batch `Graph.addEdge` keeps the names and their order. -/
theorem names_addEdge (hb : g.inBatch = true) (e : Edge) :
    (g.addEdge e).value.1.names = g.names := by
  by_cases he : e ∈ g.edges.toList
  · rw [addEdge_of_mem he]
    rfl
  · have hb' : (g.storeEdge e).value.inBatch = true := by
      rw [inBatch, (sameFrame_storeEdge e g).journal]
      exact hb
    rw [value_addEdge he, value_settle_of_inBatch hb']
    exact names_storeEdge e g

/-- Inside a batch `Graph.addEdge` keeps every mark. -/
theorem mark?_addEdge (hb : g.inBatch = true) (e : Edge) (n : String) :
    (g.addEdge e).value.1.mark? n = g.mark? n := by
  by_cases he : e ∈ g.edges.toList
  · rw [addEdge_of_mem he]
    rfl
  · have hb' : (g.storeEdge e).value.inBatch = true := by
      rw [inBatch, (sameFrame_storeEdge e g).journal]
      exact hb
    rw [value_addEdge he, value_settle_of_inBatch hb']
    exact mark?_storeEdge e g n

/-- Additions that are not refused are made one after the other. -/
theorem fst_addAll_cons {α : Type} {add : Graph → α → Traced LinkSignal (Graph × Except CycleError Bool)}
    (hproceeds : ∀ a, Proceeds False (add · a)) (hg : g.WellFormed) (hb : g.inBatch = true) (a : α)
    (as : List α) :
    (addAll add g (a :: as)).value.1 = (addAll add (add g a).value.1 as).value.1 := by
  obtain ⟨-, new, hnew⟩ := hproceeds a g hg hb
  rw [addAll_cons add g a as (Prod.ext rfl hnew)]

/-- Inside a batch adding several edges stores exactly those beside the old ones. -/
theorem mem_edges_addAll_addEdge (hg : g.WellFormed) (hb : g.inBatch = true) (es : List Edge) (f : Edge) :
    f ∈ (addAll addEdge g es).value.1.edges.toList ↔ f ∈ g.edges.toList ∨ f ∈ es := by
  induction es generalizing g with
  | nil => simp [addAll]
  | cons e es ih =>
    have hstep : BatchStep False g (g.addEdge e).value.1 := (proceeds_addEdge e g hg hb).1
    rw [fst_addAll_cons proceeds_addEdge hg hb, ih hstep.wellFormed hstep.inBatch,
      mem_edges_addEdge hb, List.mem_cons, or_assoc]

/-- Inside a batch adding several edges keeps the names and their order. -/
theorem names_addAll_addEdge (hg : g.WellFormed) (hb : g.inBatch = true) (es : List Edge) :
    (addAll addEdge g es).value.1.names = g.names := by
  induction es generalizing g with
  | nil => rfl
  | cons e es ih =>
    have hstep : BatchStep False g (g.addEdge e).value.1 := (proceeds_addEdge e g hg hb).1
    rw [fst_addAll_cons proceeds_addEdge hg hb, ih hstep.wellFormed hstep.inBatch, names_addEdge hb]

/-- Inside a batch adding several edges keeps every mark. -/
theorem mark?_addAll_addEdge (hg : g.WellFormed) (hb : g.inBatch = true) (es : List Edge) (n : String) :
    (addAll addEdge g es).value.1.mark? n = g.mark? n := by
  induction es generalizing g with
  | nil => rfl
  | cons e es ih =>
    have hstep : BatchStep False g (g.addEdge e).value.1 := (proceeds_addEdge e g hg hb).1
    rw [fst_addAll_cons proceeds_addEdge hg hb, ih hstep.wellFormed hstep.inBatch, mark?_addEdge hb]

end Recalc.Graph
