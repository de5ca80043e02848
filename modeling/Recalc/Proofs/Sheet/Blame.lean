import Recalc.Proofs.Graph.Blame
import Recalc.Proofs.Sheet.Restructure
import Recalc.Proofs.Sheet.Upkeep

/-!
# What a refused edit blames

An edit rewires the graph in a batch and is refused with a cycle of the rewired graph. What is merely
detached closes no cycle, and the neighbours of a cycle that are new to each other are ends of an edge
that an attached item declares or brings to life. So the path comes to an item of the statement that is
new or changed, whichever cycle the search happens to meet first.
-/

namespace Recalc

namespace Graph

open Recalc.Digraph

variable {g g' : Graph} {detached : List String} {attached : List ParseItem} {err : CycleError}
  {a b : String}

/-- One name depends on another in the graph that rewiring is to result in: the edge between them is
one that stays or one that an attached item declares, and both of them have a node then. -/
structure DependsRewired (g : Graph) (detached : List String) (attached : List ParseItem)
    (a b : String) : Prop where
  edge : (⟨a, b⟩ ∈ g.edges.toList ∧ a ∉ detached ∧ a ∉ attached.map (·.name)) ∨
    ∃ item ∈ attached, item.name = a ∧ b ∈ item.dependencies
  source : (a ∈ g.names ∧ a ∉ detached) ∨ a ∈ attached.map (·.name)
  target : (b ∈ g.names ∧ b ∉ detached) ∨ b ∈ attached.map (·.name)

/-- Once a graph is rewired, its dependencies are those that `DependsRewired` names in advance. -/
theorem Rewired.depends_iff (h : Rewired g detached attached g') :
    g'.Depends a b ↔ DependsRewired g detached attached a b := by
  have hedge : (∃ item ∈ attached, ⟨a, b⟩ ∈ itemEdges item) ↔
      ∃ item ∈ attached, item.name = a ∧ b ∈ item.dependencies := by
    simp only [mem_itemEdges, eq_comm]
  rw [Depends, DependsIn, h.mem_edges, h.mem_names, h.mem_names, hedge]
  exact ⟨fun h => ⟨h.1, h.2.1, h.2.2⟩, fun h => ⟨h.edge, h.source, h.target⟩⟩

/-- Names of which neither is attached depend on each other only if they did before. -/
theorem DependsRewired.depends (h : DependsRewired g detached attached a b)
    (ha : a ∉ attached.map (·.name)) (hb : b ∉ attached.map (·.name)) : g.Depends a b := by
  refine ⟨?_, (h.source.resolve_right ha).1, (h.target.resolve_right hb).1⟩
  rcases h.edge with hkept | ⟨item, hitem, hname, -⟩
  · exact hkept.1
  · exact absurd (List.mem_map.2 ⟨item, hitem, hname⟩) ha

/-- What ending a batch refuses, it refuses with the path that the search answers. -/
theorem findCycle?_of_endBatch (hb : g.inBatch = true) (herr : g.endBatch.value.2 = .error err) :
    g.findCycle? = some err.path := by
  cases hpath : g.findCycle? with
  | none =>
    rw [value_endBatch_of_acyclic hb hpath] at herr
    cases herr
  | some path =>
    rw [value_endBatch_of_cycle hb hpath] at herr
    cases herr
    rfl

/-- What a mapped outcome failed with, the outcome failed with. -/
theorem error_of_map {ε α β : Type} {f : α → β} {x : Except ε α} {e : ε} (h : x.map f = .error e) :
    x = .error e := by
  cases x with
  | error e' => exact congrArg _ (Except.error.inj h)
  | ok a => cases h

/-- Rewiring that is refused blames an attached item. -/
theorem Sound.blames_attached (hg : g.Sound) (hb : g.inBatch = false)
    (hnodup : (attached.map (·.name)).Nodup)
    (herr : (g.rewire detached attached).value.2 = .error err) :
    (∃ item ∈ attached, item.name ∈ err.path) ∧
      Circuit (DependsRewired g detached attached) err.path := by
  -- Inside the batch of the guard everything goes through, so it is the end of the batch that fails.
  obtain ⟨hstep, new, hnew⟩ := proceeds_rewiring detached attached g.opened hg.wellFormed.opened rfl
  rw [rewire_eq, value_guarded_of_not_inBatch hb (Prod.ext rfl hnew)] at herr
  have hpath := findCycle?_of_endBatch hstep.inBatch (error_of_map herr)
  have h := rewired_rewiring hg.wellFormed.opened rfl detached hnodup
  have hrewired : Rewired g detached attached (rewiring detached attached g.opened).value.1 :=
    ⟨h.mem_names, h.mem_edges, h.mark?_of_kept, h.mark?_of_fresh, h.clock⟩
  have hcircuit : Circuit (DependsRewired g detached attached) err.path :=
    (hstep.wellFormed.circuit_of_findCycle? hpath).mono fun _ _ => hrewired.depends_iff.1
  obtain ⟨a, b, hneighbours, hnew, hold⟩ :=
    hcircuit.exists_new fun a ha => hg.not_hasCycle hb ⟨a, ha⟩
  refine ⟨?_, hcircuit⟩
  by_contra hout
  push Not at hout
  have hkept : ∀ n ∈ [a, b], n ∉ attached.map (·.name) := by
    intro n hn hmem
    obtain ⟨item, hitem, rfl⟩ := List.mem_map.1 hmem
    exact hout item hitem (hneighbours.subset hn)
  exact hold (hnew.depends (hkept a (by simp)) (hkept b (by simp)))

end Graph

namespace Sheet

open Recalc.Graph Recalc.Digraph

variable {s : Sheet} {host : Host} {statement : String} {id : GroupId} {err : CycleError}

/-- A sheet that fails to rewire its graph fails with the cycle of the graph. -/
theorem error_of_rewire {detached : List String} {attached : List ParseItem} {s' : Sheet}
    (hrewire : s.rewire detached attached = (s', .error err)) :
    (s.graph.rewire detached attached).value.2 = .error err := by
  unfold rewire at hrewire
  rcases hvalue : (s.graph.rewire detached attached).value with ⟨graph, err' | new⟩
  · simp only [hvalue] at hrewire
    cases hrewire
    rfl
  · simp only [hvalue] at hrewire
    cases hrewire

/-- Adding a group fails with a cycle only where attaching its items does. -/
theorem rewire_of_enterGroup (herr : (s.enterGroup host statement).value.2 = .error (.cycle err)) :
    ∃ items, host.parse .statement statement = .ok items ∧ (items.map (·.name)).Nodup ∧
      (s.graph.rewire [] items).value.2 = .error err := by
  rcases s.enterGroup_split host statement with
    ⟨e, he, heq⟩ | ⟨items, hparse, hnodup, -, hcycle, hentered⟩
  · rw [heq] at herr
    exact absurd (Except.error.inj herr) (he err)
  · refine ⟨items, hparse, hnodup, ?_⟩
    rcases hrewire : s.rewire [] items with ⟨s', err' | new⟩
    · rw [hcycle s' err' hrewire] at herr
      cases herr
      exact error_of_rewire hrewire
    · rw [hentered s' hrewire] at herr
      cases herr

/-- Changing a group fails with a cycle only where rewiring the graph by the difference does. -/
theorem rewire_of_changeGroup
    (herr : (s.changeGroup host id statement).value.2 = .error (.cycle err)) :
    ∃ group items, s.group? id = some group ∧ host.parse .statement statement = .ok items ∧
      (items.map (·.name)).Nodup ∧
      (s.graph.rewire (diff group items).detached (diff group items).attached).value.2 = .error err := by
  rcases s.changeGroup_split host id statement with
    ⟨e, he, heq | heq⟩ | hsame | ⟨group, items, hgroup, hparse, hnodup, -, hcycle, hchanged⟩
  · rw [heq] at herr
    exact absurd (Except.error.inj herr) (he err)
  · rw [heq] at herr
    exact absurd (Except.error.inj herr) (he err)
  · rw [hsame] at herr
    cases herr
  · refine ⟨group, items, hgroup, hparse, hnodup, ?_⟩
    rcases hrewire : s.rewire (diff group items).detached (diff group items).attached with
      ⟨s', err' | new⟩
    · rw [hcycle s' err' hrewire] at herr
      cases herr
      exact error_of_rewire hrewire
    · rw [hchanged s' hrewire] at herr
      cases herr

/-! ## Edits -/

/-- Adding a group fails only where entering it does. -/
theorem error_of_addGroup {e : SheetError} (herr : (s.addGroup host statement).value.2 = .error e) :
    (s.enterGroup host statement).value.2 = .error e := by
  rw [addGroup, Traced.value_bind] at herr
  rcases hvalue : (s.enterGroup host statement).value with ⟨s', e' | id⟩ <;> rw [hvalue] at herr
  · exact congrArg _ (Except.error.inj herr)
  · cases herr

/-- Editing a group fails only where changing it does. -/
theorem error_of_editGroup {e : SheetError}
    (herr : (s.editGroup host id statement).value.2 = .error e) :
    (s.changeGroup host id statement).value.2 = .error e := by
  rw [editGroup, Traced.value_bind] at herr
  rcases hvalue : (s.changeGroup host id statement).value with ⟨s', e' | changed⟩ <;>
    rw [hvalue] at herr
  · exact congrArg _ (Except.error.inj herr)
  · cases changed <;> cases herr

/-- The group has no equation of the item's name, or one of another content or kind. -/
def AlteredBy (group : Group) (item : ParseItem) : Prop :=
  ∀ e, group.equations.get? item.name = some e → e.content ≠ item.content ∨ e.kind ≠ item.kind

/-- What an edit attaches is what a statement adds or changes. -/
theorem mem_attached_iff {group : Group} {items : List ParseItem} {item : ParseItem} :
    item ∈ (diff group items).attached ↔ item ∈ items ∧ AlteredBy group item := by
  rw [GroupDiff.attached, diff, List.mem_append, List.mem_filter, List.mem_filter, ← and_or_left,
    AlteredBy]
  refine and_congr_right fun _ => ?_
  cases group.equations.get? item.name <;> simp

/-- A group that is refused because of a cycle blames one of its items. -/
theorem AtRest.blames_added (hs : s.AtRest)
    (hfailed : (s.perform host (.addGroup statement)).value.2 = .failed (.cycle err)) :
    ∃ items, host.parse .statement statement = .ok items ∧ (∃ item ∈ items, item.name ∈ err.path) ∧
      Circuit (DependsRewired s.graph [] items) err.path := by
  have hcreated : ∀ id, SheetReply.created id ≠ .failed (.cycle err) := fun id => nofun
  have herr : (s.enterGroup host statement).value.2 = .error (.cycle err) :=
    error_of_addGroup (error_of_reply hcreated hfailed)
  obtain ⟨items, hparse, hnodup, hrewire⟩ := rewire_of_enterGroup herr
  exact ⟨items, hparse, hs.sound.blames_attached hs.inBatch hnodup hrewire⟩

/-- An edit that is refused because of a cycle blames an item that is new or changed. -/
theorem AtRest.blames_altered (hs : s.AtRest)
    (hfailed : (s.perform host (.editGroup id statement)).value.2 = .failed (.cycle err)) :
    ∃ group items, s.group? id = some group ∧ host.parse .statement statement = .ok items ∧
      (∃ item ∈ items, AlteredBy group item ∧ item.name ∈ err.path) ∧
      Circuit (DependsRewired s.graph (diff group items).detached (diff group items).attached)
        err.path := by
  have hdone : Unit → SheetReply.done ≠ .failed (.cycle err) := fun _ => nofun
  have herr : (s.changeGroup host id statement).value.2 = .error (.cycle err) :=
    error_of_editGroup (error_of_reply hdone hfailed)
  obtain ⟨group, items, hgroup, hparse, hnodup, hrewire⟩ := rewire_of_changeGroup herr
  obtain ⟨⟨item, hitem, hpath⟩, hcircuit⟩ :=
    hs.sound.blames_attached hs.inBatch (nodup_attached group hnodup) hrewire
  obtain ⟨hmem, haltered⟩ := mem_attached_iff.1 hitem
  exact ⟨group, items, hgroup, hparse, ⟨item, hmem, haltered, hpath⟩, hcircuit⟩

end Sheet

open Recalc.Graph Recalc.Digraph

/-- A refusal blames what was refused. Whatever was done to a graph that is not in a batch, an edge that
is refused is stepped along by the path of the error, and a node that is refused is on it. Whatever was
done to a sheet, a group that is refused because of a cycle has an item on the path, and an edit that is
refused because of a cycle has one that it adds or changes. Each time the path closes, and each name on
it depends on the next one in the graph that was refused. -/
theorem blames_of_refused :
    (∀ commands : List GraphCommand,
      let g := (GraphSession.performAll {} commands).value.graph
      g.inBatch = false →
        (∀ e err, (g.addEdge e).value.2 = .error err →
          [e.source, e.target] <:+: err.path ∧
            Circuit (DependsIn g.names (g.edges.toList ++ [e])) err.path) ∧
        ∀ name err, (g.addNode name).value.2 = .error err →
          name ∈ err.path ∧ Circuit (DependsIn (g.names ++ [name]) g.edges.toList) err.path) ∧
    ∀ host options store steps host',
      let s := (Sheet.create host options store >>= (·.performEach steps)).value
      (∀ statement err, (s.perform host' (.addGroup statement)).value.2 = .failed (.cycle err) →
        ∃ items, host'.parse .statement statement = .ok items ∧
          (∃ item ∈ items, item.name ∈ err.path) ∧
          Circuit (DependsRewired s.graph [] items) err.path) ∧
      ∀ id statement err, (s.perform host' (.editGroup id statement)).value.2 = .failed (.cycle err) →
        ∃ group items, s.group? id = some group ∧ host'.parse .statement statement = .ok items ∧
          (∃ item ∈ items, Sheet.AlteredBy group item ∧ item.name ∈ err.path) ∧
          Circuit (DependsRewired s.graph (Sheet.diff group items).detached
            (Sheet.diff group items).attached) err.path := by
  constructor
  · intro commands g hb
    have hg : g.Sound := GraphSession.sound_of_commands commands
    exact ⟨fun _ _ herr => hg.blames_edge hb herr, fun _ _ herr => hg.blames_node hb herr⟩
  · intro host options store steps host' s
    have hs : s.AtRest := (Sheet.atRest_create host options store).performEach steps
    exact ⟨fun _ _ hfailed => hs.blames_added hfailed, fun _ _ _ hfailed => hs.blames_altered hfailed⟩

/-- A group of two equations that read each other. -/
theorem reply_add_circle :
    ((Sheet.create Sheet.chainHost {} {} >>= (·.performEach [])).value.perform Sheet.chainHost
      (.addGroup "b")).value.2 = .failed (.cycle ⟨["a", "b", "a"]⟩) := rfl

/-- An edit that makes two equations read each other. -/
theorem reply_edit_circle :
    ((Sheet.create Sheet.chainHost {} {} >>=
      (·.performEach [(Sheet.chainHost, .addGroup "c")])).value.perform Sheet.chainHost
        (.editGroup (.serial 0) "b")).value.2 = .failed (.cycle ⟨["b", "a", "b"]⟩) := rfl

/-- One edge too many; a node that three edges have waited for; and the two edits. -/
theorem blames_of_refused_circles :
    let g := (GraphSession.performAll {} [.addNodes ["a", "b"],
      .addEdges [⟨"b", "a"⟩, ⟨"a", "c"⟩, ⟨"c", "b"⟩]]).value.graph
    let s := (Sheet.create Sheet.chainHost {} {} >>=
      (·.performEach [(Sheet.chainHost, .addGroup "c")])).value
    g.inBatch = false ∧
    ((g.addEdge ⟨"a", "b"⟩).value.2 = .error ⟨["a", "b", "a"]⟩ ∧ ["a", "b"] <:+: ["a", "b", "a"]) ∧
    ((g.addNode "c").value.2 = .error ⟨["a", "c", "b", "a"]⟩ ∧
      Circuit (DependsIn (g.names ++ ["c"]) g.edges.toList) ["a", "c", "b", "a"]) ∧
    (∃ items, Sheet.chainHost.parse .statement "b" = .ok items ∧
      ∃ item ∈ items, item.name ∈ ["a", "b", "a"]) ∧
    ∃ group items, s.group? (.serial 0) = some group ∧
      Sheet.chainHost.parse .statement "b" = .ok items ∧
      ∃ item ∈ items, Sheet.AlteredBy group item ∧ item.name ∈ ["b", "a", "b"] := by
  intro g s
  obtain ⟨hgraph, hsheet⟩ := blames_of_refused
  have hb : g.inBatch = false := by decide
  have hedge : (g.addEdge ⟨"a", "b"⟩).value.2 = .error ⟨["a", "b", "a"]⟩ := by decide
  have hnode : (g.addNode "c").value.2 = .error ⟨["a", "c", "b", "a"]⟩ := by decide
  obtain ⟨items, hparse, hitem, -⟩ := (hsheet _ _ _ _ _).1 _ _ reply_add_circle
  obtain ⟨group, items', hgroup, hparse', hitem', -⟩ := (hsheet _ _ _ _ _).2 _ _ _ reply_edit_circle
  exact ⟨hb, ⟨hedge, ((hgraph _ hb).1 _ _ hedge).1⟩, ⟨hnode, ((hgraph _ hb).2 _ _ hnode).2⟩,
    ⟨items, hparse, hitem⟩, group, items', hgroup, hparse', hitem'⟩

end Recalc
