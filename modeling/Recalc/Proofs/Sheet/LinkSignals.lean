import Recalc.Proofs.Graph.Additions
import Recalc.Proofs.Graph.Signals
import Recalc.Proofs.Sheet.Rewire

/-!
# What rewiring reports

Detaching only unlinks edges at names that have a node, and attaching items that have no node and no
edges is extending the graph by their nodes and edges. So the signals of a rewiring that goes through are
about touched names only, and for a name that is new they say exactly which of its link sets are not
empty (`Reported`).
-/

namespace Recalc.Graph

variable {g g' h : Graph} {P : LinkSignal → Prop} {detached : List String} {attached : List ParseItem}

/-! ## Detaching -/

/-- All signals of `Graph.detachName` are of a kind that the edges at the node permit. -/
theorem every_detachName {name : String} (hg : g.WellFormed) (hb : g.inBatch = true)
    (hpermits : ∀ e ∈ g.edges.toList, e.source = name ∨ e.target = name → Permits P g e) :
    (g.detachName name).Every P := by
  have hnode : BatchStep True g (g.removeNode name).value.1 := batchStep_removeNode hg hb name
  have hnames : (g.removeNode name).value.1.names ⊆ g.names := by
    rw [names_removeNode]
    exact List.filter_subset_self _
  have hedges : ((g.removeNode name).value.1.removeEdges
      ((g.removeNode name).value.1.edges.leaving name)).Every P := by
    refine every_removeEdges fun e he => ?_
    rw [hnode.wellFormed.indexed.mem_leaving, edges_removeNode] at he
    exact (hpermits e he.1 (Or.inl he.2)).of_subset hnames
  exact (every_removeNode hg hpermits).bind (hedges.bind (Traced.Every.pure _))

/-- All signals of detaching several names are of a kind that the edges at these nodes permit. -/
theorem every_detachNames (hg : g.WellFormed) (hb : g.inBatch = true)
    (hpermits : ∀ name ∈ detached, ∀ e ∈ g.edges.toList, e.source = name ∨ e.target = name →
      Permits P g e) : (detached.foldlM detachName g).Every P := by
  induction detached generalizing g with
  | nil => exact Traced.Every.pure g
  | cons name detached ih =>
    rw [List.forall_mem_cons] at hpermits
    have hstep : BatchStep True g (g.detachName name).value := batchStep_detachName hg hb name
    have hnames : (g.detachName name).value.names ⊆ g.names := by
      rw [names_detachName]
      exact List.filter_subset_self _
    rw [List.foldlM_cons]
    refine (every_detachName hg hb hpermits.1).bind (ih hstep.wellFormed hstep.inBatch ?_)
    intro name' hname' e he hend
    exact (hpermits.2 name' hname' e ((mem_edges_detachName hg name e).1 he).1 hend).of_subset hnames

/-! ## Attaching -/

/-- The node and the edges of an item. -/
def itemAdditions (item : ParseItem) : List Addition :=
  .node item.name :: (itemEdges item).map .edge

/-- Adding a node stores no edge. -/
theorem edges_extend_node (g : Graph) (name : String) :
    (g.extend (.node name)).value.edges = g.edges := by
  by_cases hname : g.Has (.node name)
  · rw [extend_of_has hname]
    rfl
  · rw [extend_of_not_has hname]
    exact edges_attach _ name g {}

/-- Inside a batch, an item without edges is attached by extending the graph. -/
theorem attachItem_withJournal (h : Graph) (journal : List Change) {item : ParseItem}
    (hleaving : h.edges.leaving item.name = []) :
    ∃ journal' new, (h.withJournal (some journal)).attachItem item =
      (fun g' => (g'.withJournal (some journal'), .ok new)) <$> h.extendAll (itemAdditions item) := by
  set h' := (h.extend (.node item.name)).value with hh'
  set journal' := h.noted (.node item.name) ++ journal with hjournal'
  have hadd : ∀ g e, addEdge g e = g.add (.edge e) := fun _ _ => rfl
  obtain ⟨new, hedges⟩ := addAll_withJournal hadd h' journal' (itemEdges item)
  refine ⟨h'.notedAll ((itemEdges item).map .edge) ++ journal', new, ?_⟩
  have hnode : (h.withJournal (some journal)).addNode item.name = _ :=
    add_withJournal h (.node item.name) journal
  -- There are no edges to remove.
  have hnone : (h'.withJournal (some journal')).edges.leaving item.name = [] := by
    show h'.edges.leaving item.name = []
    rw [hh', edges_extend_node, hleaving]
  rw [attachItem, hnode, bind_map_left, itemAdditions, extendAll_cons, map_bind]
  refine Traced.bind_congr_value ?_
  show ((h'.withJournal (some journal')).removeEdges
    ((h'.withJournal (some journal')).edges.leaving item.name) >>= fun r =>
      addAll addEdge r.1 (itemEdges item)) = _
  rw [hnone]
  exact hedges

/-- Inside a batch, items without edges are attached by extending the graph. -/
theorem WellFormed.addAll_attachItem_withJournal (hh : h.WellFormed) (journal : List Change)
    {items : List ParseItem} (hnodup : (items.map (·.name)).Nodup)
    (hbare : ∀ item ∈ items, ∀ e ∈ h.edges.toList, e.source ≠ item.name) :
    ∃ journal' new, addAll attachItem (h.withJournal (some journal)) items =
      (fun g' => (g'.withJournal (some journal'), .ok new)) <$>
        h.extendAll (items.flatMap itemAdditions) := by
  induction items generalizing h journal with
  | nil => exact ⟨journal, true, rfl⟩
  | cons item items ih =>
    rw [List.map_cons, List.nodup_cons] at hnodup
    rw [List.forall_mem_cons] at hbare
    have hleaving : h.edges.leaving item.name = [] :=
      List.eq_nil_iff_forall_not_mem.2 fun e he =>
        hbare.1 e (hh.indexed.mem_leaving.1 he).1 (hh.indexed.mem_leaving.1 he).2
    obtain ⟨journal', new, hitem⟩ := attachItem_withJournal h journal hleaving
    -- The edges that come are edges of this item, so the later ones still have none.
    have hlater : ∀ item' ∈ items, ∀ e ∈ (h.extendAll (itemAdditions item)).value.edges.toList,
        e.source ≠ item'.name := by
      intro item' hitem' e he
      rcases (mem_edges_extendAll _ h e).1 he with hold | hnew
      · exact hbare.2 item' hitem' e hold
      · have hsource : e.source = item.name := by
          rw [itemAdditions, List.mem_cons] at hnew
          obtain ⟨e', he', heq⟩ := List.mem_map.1 (hnew.resolve_left (by simp))
          obtain rfl : e' = e := Addition.edge.inj heq
          exact (mem_itemEdges.1 he').1
        rw [hsource]
        exact fun hname => hnodup.1 (hname ▸ List.mem_map_of_mem hitem')
    obtain ⟨journal'', all, hrest⟩ := ih (hh.extendAll _) journal' hnodup.2 hlater
    refine ⟨journal'', new && all, ?_⟩
    have hall : h.extendAll (itemAdditions item ++ items.flatMap itemAdditions) =
        h.extendAll (itemAdditions item) >>= (·.extendAll (items.flatMap itemAdditions)) :=
      List.foldlM_append
    rw [addAll, hitem, bind_map_left, List.flatMap_cons, hall, map_bind]
    refine Traced.bind_congr_value ?_
    show addAll attachItem _ items >>= _ = _
    rw [hrest, bind_map_left, map_eq_pure_bind]
    rfl

/-- Extending announces changes at the ends of new edges and of edges at new nodes. -/
theorem WellFormed.every_extendAll {N : String → Prop} (hg : g.WellFormed) {as : List Addition}
    (hedges : ∀ e ∈ g.edges.toList, N e.source ∨ N e.target →
      P (.dependencies e.source) ∧ P (.dependents e.target))
    (hnodes : ∀ n, .node n ∈ as → N n)
    (hnew : ∀ e, .edge e ∈ as → P (.dependencies e.source) ∧ P (.dependents e.target)) :
    (g.extendAll as).Every P := by
  induction as generalizing g with
  | nil => exact Traced.Every.pure g
  | cons a as ih =>
    have hfirst : (g.extend a).Every P := by
      by_cases ha : g.Has a
      · rw [extend_of_has ha]
        exact Traced.Every.pure g
      · rw [extend_of_not_has ha]
        cases a with
        | node name =>
          have hname := hnodes name List.mem_cons_self
          refine every_attach hg fun e he hend => hedges e he ?_
          rcases hend with hsource | htarget
          · exact Or.inl (hsource ▸ hname)
          · exact Or.inr (htarget ▸ hname)
        | edge e =>
          have hboth := hnew e List.mem_cons_self
          exact Permits.link ⟨fun _ => hboth.1, fun _ => hboth.2⟩
    rw [extendAll_cons]
    refine hfirst.bind (ih (hg.extend a) (fun e he hend => ?_)
      (fun n hn => hnodes n (List.mem_cons_of_mem _ hn)) fun e he => hnew e (List.mem_cons_of_mem _ he))
    rcases (mem_edges_extend g a e).1 he with hold | heq
    · exact hedges e hold hend
    · exact hnew e (heq ▸ List.mem_cons_self)

/-- The additions of an item add the node of its name and no other. -/
theorem node_mem_itemAdditions {item : ParseItem} {n : String} :
    .node n ∈ itemAdditions item ↔ n = item.name := by
  simp [itemAdditions]

/-- The additions of an item add its edges and no others. -/
theorem edge_mem_itemAdditions {item : ParseItem} {e : Edge} :
    .edge e ∈ itemAdditions item ↔ e ∈ itemEdges item := by
  simp [itemAdditions]

/-! ## Rewiring -/

/-- A guard whose batch goes through announces what its step announces. -/
theorem events_guarded_of_ok {α : Type} {step : Graph → Traced LinkSignal (Graph × Except CycleError α)}
    (hb : g.inBatch = false) {a b : α} (hstep : (step g.opened).value = (h, .ok a))
    (hh : h.inBatch = true) (hok : (g.guarded step).value = (g', .ok b)) :
    (g.guarded step).events = (step g.opened).events := by
  obtain ⟨journal, hj⟩ := Option.isSome_iff_exists.1 hh
  have hend : h.endBatch.events = [] := by
    cases hpath : h.findCycle? with
    | none => rw [endBatch_of_acyclic hj hpath]; rfl
    | some path =>
      -- A cycle would have been refused.
      rw [value_guarded_of_not_inBatch hb hstep, value_endBatch_of_cycle hh hpath] at hok
      cases hok
  simp [guarded, openGuard, beginBatch_of_not_inBatch hb, hstep, commitGuard, hend]

/-- The names that an edit may touch: those that are detached and attached, their neighbours, and those
that the attached items read. -/
theorem mem_touchedBy (hg : g.WellFormed) {n : String} :
    n ∈ g.touchedBy detached attached ↔
      (∃ m, (m ∈ detached ∨ m ∈ attached.map (·.name)) ∧
        (n = m ∨ ⟨m, n⟩ ∈ g.edges.toList ∨ ⟨n, m⟩ ∈ g.edges.toList)) ∨
      ∃ item ∈ attached, n ∈ item.dependencies := by
  have hleaving : ∀ m, n ∈ (g.edges.leaving m).map (·.target) ↔ ⟨m, n⟩ ∈ g.edges.toList := by
    intro m
    rw [List.mem_map]
    constructor
    · rintro ⟨e, he, rfl⟩
      obtain ⟨hmem, rfl⟩ := hg.indexed.mem_leaving.1 he
      exact hmem
    · exact fun he => ⟨_, hg.indexed.mem_leaving.2 ⟨he, rfl⟩, rfl⟩
  have harriving : ∀ m, n ∈ (g.edges.arriving m).map (·.source) ↔ ⟨n, m⟩ ∈ g.edges.toList := by
    intro m
    rw [List.mem_map]
    constructor
    · rintro ⟨e, he, rfl⟩
      obtain ⟨hmem, rfl⟩ := hg.indexed.mem_arriving.1 he
      exact hmem
    · exact fun he => ⟨_, hg.indexed.mem_arriving.2 ⟨he, rfl⟩, rfl⟩
  simp only [touchedBy, List.mem_append, List.mem_flatMap, List.mem_cons, hleaving, harriving]

/-- What the signals of a rewiring say: they are about touched names, and for a new name they say which
of its link sets are not empty. -/
structure Reported (g : Graph) (detached : List String) (attached : List ParseItem) (g' : Graph)
    (events : List LinkSignal) : Prop where
  touched : ∀ signal ∈ events, signal.name ∈ g.touchedBy detached attached
  mem_dependencies : ∀ n, n ∉ g.names → (.dependencies n ∈ events ↔ g'.dependenciesOf n ≠ [])
  mem_dependents : ∀ n, n ∉ g.names → (.dependents n ∈ events ↔ g'.dependentsOf n ≠ [])

/-- An edge with an end that is detached or attached has touched ends. -/
theorem touchedBy_of_mem_edges (hg : g.WellFormed) {e : Edge} (he : e ∈ g.edges.toList) {m : String}
    (hm : m ∈ detached ∨ m ∈ attached.map (·.name)) (hend : e.source = m ∨ e.target = m) :
    e.source ∈ g.touchedBy detached attached ∧ e.target ∈ g.touchedBy detached attached := by
  rcases hend with rfl | rfl
  · exact ⟨(mem_touchedBy hg).2 (Or.inl ⟨_, hm, Or.inl rfl⟩),
      (mem_touchedBy hg).2 (Or.inl ⟨_, hm, Or.inr (Or.inl he)⟩)⟩
  · exact ⟨(mem_touchedBy hg).2 (Or.inl ⟨_, hm, Or.inr (Or.inr he)⟩),
      (mem_touchedBy hg).2 (Or.inl ⟨_, hm, Or.inl rfl⟩)⟩

section Rewire

variable (hg : g.Sound) (hb : g.inBatch = false) {new : Bool} (hnodup : (attached.map (·.name)).Nodup)
  (hfresh : ∀ n ∈ attached.map (·.name), n ∈ detached ∨ n ∉ g.names)
  (hsourced : ∀ e ∈ g.edges.toList, e.source ∈ g.names)
  (hok : (g.rewire detached attached).value = (g', .ok new))

include hg hb hnodup hfresh hsourced hok

/-- If what is attached has no node or is detached first, and every edge leaves a node, then rewiring
that goes through is detaching and then extending. -/
theorem Sound.rewire_extends :
    let t := (detached.foldlM detachName g.opened).value.extendAll (attached.flatMap itemAdditions)
    (g.rewire detached attached).events = (detached.foldlM detachName g.opened).events ++ t.events ∧
      (∀ n, g'.dependenciesOf n = t.value.dependenciesOf n) ∧
      ∀ n, g'.dependentsOf n = t.value.dependentsOf n := by
  have hdetached := detached_foldlM hg.wellFormed.opened rfl detached
  set h := (detached.foldlM detachName g.opened).value with hh
  intro t
  -- Nothing that is attached has edges.
  have hbare : ∀ item ∈ attached, ∀ e ∈ h.edges.toList, e.source ≠ item.name := by
    intro item hitem e he hsource
    obtain ⟨hold, hkept⟩ := (hdetached.mem_edges e).1 he
    rw [hsource] at hkept
    have hgone := (hfresh item.name (List.mem_map_of_mem hitem)).resolve_left hkept
    exact hgone (hsource ▸ hsourced e hold)
  obtain ⟨journal, hj⟩ := Option.isSome_iff_exists.1 hdetached.step.inBatch
  have hopen : h.withJournal (some journal) = h := by rw [withJournal, ← hj]
  obtain ⟨journal', all, hattach⟩ :=
    hdetached.step.wellFormed.addAll_attachItem_withJournal journal hnodup hbare
  rw [hopen] at hattach
  have hstep : (rewiring detached attached g.opened).value =
      (t.value.withJournal (some journal'), .ok all) := by
    rw [rewiring, Traced.value_bind, ← hh, hattach]
    rfl
  rw [rewire_eq] at hok ⊢
  refine ⟨?_, ?_⟩
  · rw [events_guarded_of_ok hb hstep rfl hok, rewiring, Traced.events_bind, ← hh, hattach,
      Traced.events_map]
  · -- Ending the batch only drops the journal.
    rw [value_guarded_of_not_inBatch hb hstep] at hok
    cases hpath : (t.value.withJournal (some journal')).findCycle? with
    | none =>
      rw [value_endBatch_of_acyclic rfl hpath] at hok
      obtain rfl := congrArg Prod.fst hok
      exact ⟨fun _ => rfl, fun _ => rfl⟩
    | some path =>
      rw [value_endBatch_of_cycle rfl hpath] at hok
      cases hok

/-- A rewiring that is not refused reports the links of new names, and nothing about names that it does not
touch. -/
theorem Sound.reported_rewire :
    Reported g detached attached g' (g.rewire detached attached).events := by
  have hwf := hg.wellFormed.opened
  have hdetached := detached_foldlM hwf rfl detached
  obtain ⟨hevents, hdeps, hdependents⟩ := hg.rewire_extends hb hnodup hfresh hsourced hok
  set h := (detached.foldlM detachName g.opened).value with hh
  set t := h.extendAll (attached.flatMap itemAdditions) with ht
  have hpermits : ∀ name ∈ detached, ∀ e ∈ g.opened.edges.toList, e.source = name ∨ e.target = name →
      Permits (fun signal => signal.name ∈ g.names ∧ signal.name ∈ g.touchedBy detached attached)
        g.opened e := by
    intro name hname e he hend
    have hboth : e.source ∈ g.touchedBy detached attached ∧ e.target ∈ g.touchedBy detached attached :=
      touchedBy_of_mem_edges hg.wellFormed he (Or.inl hname) hend
    exact ⟨fun hs => ⟨hs, hboth.1⟩, fun ht => ⟨ht, hboth.2⟩⟩
  have hdetach := every_detachNames hwf rfl hpermits
  have hextend : t.Every fun signal => signal.name ∈ g.touchedBy detached attached := by
    refine hdetached.step.wellFormed.every_extendAll (N := (· ∈ attached.map (·.name))) ?_ ?_ ?_
    · intro e he hend
      have hold := ((hdetached.mem_edges e).1 he).1
      rcases hend with hs | ht
      · exact touchedBy_of_mem_edges hg.wellFormed hold (Or.inr hs) (Or.inl rfl)
      · exact touchedBy_of_mem_edges hg.wellFormed hold (Or.inr ht) (Or.inr rfl)
    · intro n hn
      obtain ⟨item, hitem, hmem⟩ := List.mem_flatMap.1 hn
      exact node_mem_itemAdditions.1 hmem ▸ List.mem_map_of_mem hitem
    · intro e he
      obtain ⟨item, hitem, hmem⟩ := List.mem_flatMap.1 he
      obtain ⟨hsource, htarget⟩ := mem_itemEdges.1 (edge_mem_itemAdditions.1 hmem)
      refine ⟨(mem_touchedBy hg.wellFormed).2 (Or.inl ⟨item.name, ?_, Or.inl hsource⟩),
        (mem_touchedBy hg.wellFormed).2 (Or.inr ⟨item, hitem, htarget⟩)⟩
      exact Or.inr (List.mem_map_of_mem hitem)
  have hgrows := grows_extendAll (attached.flatMap itemAdditions) h
  refine ⟨fun signal hsignal => ?_, fun n hn => ?_, fun n hn => ?_⟩
  · rw [hevents, List.mem_append] at hsignal
    exact hsignal.elim (fun hs => (hdetach signal hs).2) (hextend signal)
  · have hgone : n ∉ h.names := fun hmem => hn ((hdetached.mem_names n).1 hmem).1
    have hquiet : .dependencies n ∉ (detached.foldlM detachName g.opened).events :=
      fun hmem => hn (hdetach _ hmem).1
    have hiff := (hgrows.dependencies n).reported_iff
    rw [dependenciesOf_of_not_mem hgone, List.subset_nil] at hiff
    rw [hevents, List.mem_append, or_iff_right hquiet, hdeps]
    exact hiff
  · have hgone : n ∉ h.names := fun hmem => hn ((hdetached.mem_names n).1 hmem).1
    have hquiet : .dependents n ∉ (detached.foldlM detachName g.opened).events :=
      fun hmem => hn (hdetach _ hmem).1
    have hiff := (hgrows.dependents n).reported_iff
    rw [dependentsOf_of_not_mem hgone, List.subset_nil] at hiff
    rw [hevents, List.mem_append, or_iff_right hquiet, hdependents]
    exact hiff

end Rewire

end Recalc.Graph
