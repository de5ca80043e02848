import Recalc.Proofs.Graph.Acyclic
import Recalc.Proofs.Graph.View
import Recalc.Sheet.Links

/-!
# Rewiring

Rewiring detaches names and attaches items in one batch. It ends in one of two ways (`rewire_cases`):
it is refused, and the graph is as it was up to the order of edges and links; or it goes through, and
the nodes, edges and marks are those that the detached names and attached items say (`Rewired`).
-/

namespace Recalc.Graph

variable {g g' : Graph} {marks : Prop}

/-! ## Detaching -/

/-- `Graph.detachName` removes the node and then the edges that still leave it. -/
theorem value_detachName (g : Graph) (name : String) :
    (g.detachName name).value =
      ((g.removeNode name).value.1.removeEdges
        ((g.removeNode name).value.1.edges.leaving name)).value.1 := rfl

theorem batchStep_detachName (hg : g.WellFormed) (hb : g.inBatch = true) (name : String) :
    BatchStep marks g (g.detachName name).value := by
  have hnode : BatchStep marks g (g.removeNode name).value.1 := batchStep_removeNode hg hb name
  rw [value_detachName]
  exact hnode.trans (batchStep_removeEdges hnode.wellFormed hnode.inBatch _)

/-- `Graph.detachName` takes one name out and keeps the order of the others. -/
theorem names_detachName (g : Graph) (name : String) :
    (g.detachName name).value.names = g.names.filter (· ≠ name) := by
  rw [value_detachName, names_removeEdges, names_removeNode]

/-- `Graph.detachName` erases the edges that leave the name and keeps those that arrive at it. -/
theorem mem_edges_detachName (hg : g.WellFormed) (name : String) (e : Edge) :
    e ∈ (g.detachName name).value.edges.toList ↔ e ∈ g.edges.toList ∧ e.source ≠ name := by
  rw [value_detachName, mem_edges_removeEdges, edges_removeNode, hg.indexed.mem_leaving]
  refine and_congr_right fun he => ?_
  rw [not_and]
  exact ⟨fun h => h he, fun h _ => h⟩

/-- `Graph.detachName` forgets the mark of the node it takes and of no other. -/
theorem mark?_detachName (g : Graph) (name n : String) :
    (g.detachName name).value.mark? n = if n = name then none else g.mark? n := by
  rw [value_detachName, mark?_removeEdges, mark?_removeNode]

/-- What detaching some names leaves of a graph inside a batch. -/
structure Detached (g : Graph) (detached : List String) (g' : Graph) : Prop where
  step : BatchStep True g g'
  mem_names : ∀ n, n ∈ g'.names ↔ n ∈ g.names ∧ n ∉ detached
  mem_edges : ∀ e, e ∈ g'.edges.toList ↔ e ∈ g.edges.toList ∧ e.source ∉ detached
  mark? : ∀ n, g'.mark? n = if n ∈ detached then none else g.mark? n

/-- Detaching names one after the other detaches them all. -/
theorem detached_foldlM (hg : g.WellFormed) (hb : g.inBatch = true) (detached : List String) :
    Detached g detached (detached.foldlM detachName g).value := by
  induction detached generalizing g with
  | nil =>
    refine ⟨BatchStep.refl hg hb, fun n => ?_, fun e => ?_, fun n => ?_⟩
    · simp
    · simp
    · simp
  | cons name detached ih =>
    have hname : BatchStep True g (g.detachName name).value := batchStep_detachName hg hb name
    have hrest := ih hname.wellFormed hname.inBatch
    rw [List.foldlM_cons, Traced.value_bind]
    refine ⟨hname.trans hrest.step, fun n => ?_, fun e => ?_, fun n => ?_⟩
    · rw [hrest.mem_names, names_detachName, List.mem_filter, decide_eq_true_eq, List.mem_cons, not_or,
        and_assoc]
    · rw [hrest.mem_edges, mem_edges_detachName hg, List.mem_cons, not_or, and_assoc]
    · rw [hrest.mark?, mark?_detachName]
      by_cases hn : n = name <;> by_cases hd : n ∈ detached <;> simp [hn, hd]

/-! ## Attaching -/

/-- The graph of an item without the edges of the item. -/
def attachBare (g : Graph) (name : String) : Graph :=
  ((g.addNode name).value.1.removeEdges ((g.addNode name).value.1.edges.leaving name)).value.1

/-- The edges of an item. -/
def itemEdges (item : ParseItem) : List Edge := item.dependencies.map fun d => ⟨item.name, d⟩

/-- The edges of an item lead from its name to its dependencies. -/
theorem mem_itemEdges {item : ParseItem} {e : Edge} :
    e ∈ itemEdges item ↔ e.source = item.name ∧ e.target ∈ item.dependencies := by
  rw [itemEdges, List.mem_map]
  constructor
  · rintro ⟨d, hd, rfl⟩
    exact ⟨rfl, hd⟩
  · rintro ⟨hsource, hd⟩
    exact ⟨e.target, hd, by rw [← hsource]⟩

theorem batchStep_attachBare (hg : g.WellFormed) (hb : g.inBatch = true) (name : String) :
    BatchStep marks g (g.attachBare name) := by
  have hnode : BatchStep marks g (g.addNode name).value.1 := (proceeds_addNode name g hg hb).1
  exact hnode.trans (batchStep_removeEdges hnode.wellFormed hnode.inBatch _)

/-- Inside a batch `Graph.attachItem` attaches the bare node and adds the edges of the item. -/
theorem value_attachItem (hg : g.WellFormed) (hb : g.inBatch = true) (item : ParseItem) :
    (g.attachItem item).value =
      (addAll addEdge (g.attachBare item.name) (itemEdges item)).value := by
  have hproceeds : Proceeds True (·.addNode item.name) := proceeds_addNode item.name
  obtain ⟨-, new, hnew⟩ := hproceeds g hg hb
  have hvalue : (g.addNode item.name).value = ((g.addNode item.name).value.1, .ok new) :=
    Prod.ext rfl hnew
  rw [attachItem, Traced.value_bind, hvalue]
  rfl

/-- `Graph.attachItem` inside a batch is a step and is not refused. -/
theorem proceeds_attachItem (item : ParseItem) : Proceeds marks (·.attachItem item) := by
  intro g hg hb
  show BatchStep marks g (g.attachItem item).value.1 ∧ ∃ new, (g.attachItem item).value.2 = .ok new
  have hbare : BatchStep marks g (g.attachBare item.name) := batchStep_attachBare hg hb item.name
  obtain ⟨hedges, hok⟩ := proceeds_addAll (fun e => proceeds_addEdge e) (itemEdges item) _
    hbare.wellFormed hbare.inBatch
  rw [value_attachItem hg hb]
  exact ⟨hbare.trans hedges, hok⟩

/-- What attaching some items makes of a graph inside a batch. -/
structure Attached (g : Graph) (items : List ParseItem) (g' : Graph) : Prop where
  step : BatchStep True g g'
  mem_names : ∀ n, n ∈ g'.names ↔ n ∈ g.names ∨ n ∈ items.map (·.name)
  mem_edges : ∀ e, e ∈ g'.edges.toList ↔
    (e ∈ g.edges.toList ∧ e.source ∉ items.map (·.name)) ∨ ∃ item ∈ items, e ∈ itemEdges item
  mark? : ∀ n, g'.mark? n =
    if n ∈ items.map (·.name) ∧ n ∉ g.names then some (false, Stamp.never) else g.mark? n

/-- `Graph.attachItem` inside a batch attaches one item. -/
theorem attached_attachItem (hg : g.WellFormed) (hb : g.inBatch = true) (item : ParseItem) :
    Attached g [item] (g.attachItem item).value.1 := by
  have hnode : BatchStep True g (g.addNode item.name).value.1 :=
    (proceeds_addNode item.name g hg hb).1
  have hbare : BatchStep True g (g.attachBare item.name) := batchStep_attachBare hg hb item.name
  refine ⟨(proceeds_attachItem item g hg hb).1, fun n => ?_, fun e => ?_, fun n => ?_⟩
  · rw [value_attachItem hg hb, names_addAll_addEdge hbare.wellFormed hbare.inBatch, attachBare,
      names_removeEdges, mem_names_addNode hb]
    simp
  · rw [value_attachItem hg hb, mem_edges_addAll_addEdge hbare.wellFormed hbare.inBatch, attachBare,
      mem_edges_removeEdges, hnode.wellFormed.indexed.mem_leaving, edges_addNode hb]
    simp only [List.map_cons, List.map_nil, List.mem_singleton, exists_eq_left]
    exact or_congr_left (and_congr_right fun he => not_congr (and_iff_right he))
  · rw [value_attachItem hg hb, mark?_addAll_addEdge hbare.wellFormed hbare.inBatch, attachBare,
      mark?_removeEdges, mark?_addNode hb]
    by_cases hn : n = item.name
    · simp [hn]
    · simp [hn]

/-- Inside a batch, attaching items with different names one after the other attaches them all. -/
theorem attached_addAll (hg : g.WellFormed) (hb : g.inBatch = true) {items : List ParseItem}
    (hnodup : (items.map (·.name)).Nodup) :
    Attached g items (addAll attachItem g items).value.1 := by
  induction items generalizing g with
  | nil => exact ⟨BatchStep.refl hg hb, fun n => by simp [addAll], fun e => by simp [addAll],
      fun n => by simp [addAll]⟩
  | cons item items ih =>
    rw [List.map_cons, List.nodup_cons] at hnodup
    have hitem := attached_attachItem hg hb item
    have hrest := ih hitem.step.wellFormed hitem.step.inBatch hnodup.2
    rw [fst_addAll_cons proceeds_attachItem hg hb]
    refine ⟨hitem.step.trans hrest.step, fun n => ?_, fun e => ?_, fun n => ?_⟩
    · rw [hrest.mem_names, hitem.mem_names]
      simp [or_assoc]
    · rw [hrest.mem_edges, hitem.mem_edges]
      simp only [List.map_cons, List.map_nil, List.mem_cons, List.not_mem_nil, or_false, not_or,
        exists_eq_left, exists_eq_or_imp]
      -- The edges of the first item stay, since no later item has its name.
      have hkeep : e ∈ itemEdges item → e.source ∉ items.map (·.name) := fun he => by
        rw [(mem_itemEdges.1 he).1]
        exact hnodup.1
      tauto
    · -- The name of the first item is a node by now, but no later item has it.
      rw [hrest.mark?, hitem.mark?]
      simp only [hitem.mem_names, List.map_cons, List.map_nil, List.mem_cons, List.not_mem_nil,
        or_false, not_or]
      by_cases hn : n = item.name
      · simp [hn, hnodup.1]
      · simp [hn]

/-! ## Rewiring -/

/-- What the nodes, edges and marks are after names were detached and items attached. -/
structure Rewired (g : Graph) (detached : List String) (attached : List ParseItem) (g' : Graph) :
    Prop where
  mem_names : ∀ n, n ∈ g'.names ↔
    (n ∈ g.names ∧ n ∉ detached) ∨ n ∈ attached.map (·.name)
  mem_edges : ∀ e, e ∈ g'.edges.toList ↔
    (e ∈ g.edges.toList ∧ e.source ∉ detached ∧ e.source ∉ attached.map (·.name)) ∨
      ∃ item ∈ attached, e ∈ itemEdges item
  mark?_of_kept : ∀ n, n ∉ detached → n ∉ attached.map (·.name) → g'.mark? n = g.mark? n
  mark?_of_fresh : ∀ n, n ∈ attached.map (·.name) → n ∈ detached ∨ n ∉ g.names →
    g'.mark? n = some (false, Stamp.never)
  clock : g'.clock = g.clock

/-- Detach names and attach items, whether in a batch or not. -/
def rewiring (detached : List String) (attached : List ParseItem) (g : Graph) :
    Traced LinkSignal (Graph × Except CycleError Bool) := do
  let g ← detached.foldlM detachName g
  addAll attachItem g attached

/-- `Graph.rewire` is the rewiring inside a guard. -/
theorem rewire_eq (g : Graph) (detached : List String) (attached : List ParseItem) :
    g.rewire detached attached = g.guarded (rewiring detached attached) := rfl

/-- Inside a batch, rewiring is a step and goes through. -/
theorem proceeds_rewiring (detached : List String) (attached : List ParseItem) :
    Proceeds True (rewiring detached attached) := by
  intro g hg hb
  have hdetached := (detached_foldlM hg hb detached).step
  obtain ⟨hattached, hok⟩ := proceeds_addAll (fun item => proceeds_attachItem item) attached _
    hdetached.wellFormed hdetached.inBatch
  exact ⟨hdetached.trans hattached, hok⟩

/-- Inside a batch, rewiring detaches the names and attaches the items. -/
theorem rewired_rewiring (hg : g.WellFormed) (hb : g.inBatch = true) (detached : List String)
    {attached : List ParseItem} (hnodup : (attached.map (·.name)).Nodup) :
    Rewired g detached attached (rewiring detached attached g).value.1 := by
  have hdetached := detached_foldlM hg hb detached
  have hattached := attached_addAll hdetached.step.wellFormed hdetached.step.inBatch hnodup
  show Rewired g detached attached
    (addAll attachItem (detached.foldlM detachName g).value attached).value.1
  refine ⟨fun n => ?_, fun e => ?_, fun n hd ha => ?_, fun n ha hd => ?_, ?_⟩
  · rw [hattached.mem_names, hdetached.mem_names]
  · rw [hattached.mem_edges, hdetached.mem_edges, and_assoc]
  · rw [hattached.mark?, if_neg fun h => ha h.1, hdetached.mark?, if_neg hd]
  · rw [hattached.mark?, if_pos]
    refine ⟨ha, ?_⟩
    rw [hdetached.mem_names, not_and, not_not]
    exact fun hn => hd.resolve_right fun h => h hn
  · exact (hattached.step.clock trivial).trans (hdetached.step.clock trivial)

/-- The two ways in which rewiring ends. -/
theorem Sound.rewire_cases (hg : g.Sound) (hb : g.inBatch = false) (detached : List String)
    (attached : List ParseItem) :
    (∃ g' new, (g.rewire detached attached).value = (g', .ok new) ∧ g'.Sound ∧ g'.inBatch = false ∧
        ((attached.map (·.name)).Nodup → Rewired g detached attached g')) ∨
      ∃ g' err, (g.rewire detached attached).value = (g', .error err) ∧ g'.Sound ∧
        g'.inBatch = false ∧ Alike True g' g ∧ g'.clock = g.clock := by
  have hsound : (g.rewire detached attached).value.1.Sound :=
    hg.guarded fun h hh hhb => ((proceeds_rewiring detached attached) h hh hhb).imp_left
      (BatchStep.mono fun _ => trivial)
  -- Inside the batch of the guard everything goes through, so only ending it can fail.
  obtain ⟨hstep, new, hnew⟩ := proceeds_rewiring detached attached g.opened hg.wellFormed.opened rfl
  have hvalue := value_guarded_of_not_inBatch hb (Prod.ext rfl hnew)
  rw [rewire_eq] at hsound ⊢
  rw [hvalue] at hsound ⊢
  have hsettled := hstep.settled
  rw [settled_opened hb] at hsettled
  rcases hstep.wellFormed.value_endBatch_cases hstep.inBatch with ⟨hend, -⟩ | ⟨⟨err, hend⟩, -⟩
  · rw [hend] at hsound ⊢
    refine Or.inl ⟨_, new, rfl, hsound, rfl, fun hnodup => ?_⟩
    have h := rewired_rewiring hg.wellFormed.opened rfl detached hnodup
    exact ⟨h.mem_names, h.mem_edges, h.mark?_of_kept, h.mark?_of_fresh, h.clock⟩
  · rw [hend] at hsound ⊢
    refine Or.inr ⟨_, err, rfl, hsound, inBatch_settled _, hsettled, ?_⟩
    rw [clock_settled]
    exact hstep.clock trivial

end Recalc.Graph
