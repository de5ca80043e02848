import Mathlib.Algebra.Group.Nat.Even
import Mathlib.Data.Finset.SymmDiff
import Recalc.Proofs.Graph.Additions
import Recalc.Proofs.Graph.Signals

/-!
# Signals count changes

Whoever listens to a graph may count. A change of a graph, inside a batch or not, announces for each node
that is there afterwards as many changes of a link set as there are names by which the set differs, and it
announces nothing about names without a node (`Announces`). Adding only links and removing only unlinks, so
no link comes and goes on the way.

An addition that is refused does both: it is made and taken back. Then the links of the nodes that stay are
announced once when they come and once when they go, so signals about these nodes come in pairs.
-/

namespace Recalc

namespace Graph

variable {g g' : Graph} {events : List LinkSignal}

/-- By how many names two link sets differ. -/
def distance (before after : List String) : Nat := (symmDiff before.toFinset after.toFinset).card

/-- The distance of two link sets does not depend on which comes first. -/
theorem distance_comm (before after : List String) : distance before after = distance after before := by
  rw [distance, symmDiff_comm, distance]

/-- A link set has distance zero to itself. -/
theorem distance_self (names : List String) : distance names names = 0 := by
  rw [distance, symmDiff_self]
  rfl

/-- A link set that exceeds another one by `k` names has distance `k` to it. -/
theorem Exceeds.distance_eq {more less : List String} {k : Nat} (h : Exceeds more less k)
    (hnodup : more.Nodup) : distance less more = k := by
  have hsub : less.toFinset ≤ more.toFinset := fun n hn =>
    List.mem_toFinset.2 (h.sublist.subset (List.mem_toFinset.1 hn))
  rw [distance, symmDiff_of_le hsub, Finset.card_sdiff_of_subset hsub,
    List.toFinset_card_of_nodup hnodup, List.toFinset_card_of_nodup (hnodup.sublist h.sublist),
    h.length_eq, Nat.add_sub_cancel_left]

/-- On the way from one graph to another one, a change of a link set is announced as often as it has names
that come or go, for each node that is there at the end, and nothing is announced about other names. -/
structure Announces (before after : Graph) (events : List LinkSignal) : Prop where
  count_eq : ∀ signal, signal.name ∈ after.names →
    events.count signal = distance (before.linksOf signal) (after.linksOf signal)
  mem_names : ∀ signal ∈ events, signal.name ∈ after.names

namespace Announces

theorem refl (g : Graph) : Announces g g [] :=
  ⟨fun signal _ => (distance_self (g.linksOf signal)).symm, fun _ h => nomatch h⟩

/-- Only the nodes of the end matter. -/
theorem of_nodes (h : Announces g g' events) {g'' : Graph} (hnodes : g''.nodes = g'.nodes) :
    Announces g g'' events := by
  have hnames : g''.names = g'.names := congrArg OrderedMap.keys hnodes
  have hlinks : ∀ signal, g''.linksOf signal = g'.linksOf signal := fun signal =>
    linksOf_congr (congrArg (·.get? signal.name) hnodes)
  refine ⟨fun signal hname => ?_, fun signal hsignal => ?_⟩
  · rw [hlinks]
    exact h.count_eq signal (hnames ▸ hname)
  · rw [hnames]
    exact h.mem_names signal hsignal

end Announces

/-- Signals of links are about nodes. -/
theorem every_mem_names {f : Graph → Edge → Traced LinkSignal Graph}
    (hframe : ∀ g e, SameFrame (f g e).value g)
    (hf : ∀ (P : LinkSignal → Prop) g e, Permits P g e → (f g e).Every P) (es : List Edge) (g : Graph) :
    (es.foldlM f g).Every fun signal => signal.name ∈ (es.foldlM f g).value.names := by
  rw [(sameFrame_foldlM hframe es g).names]
  exact every_foldlM hframe (hf _) fun e _ => ⟨id, id⟩

/-! ## Additions -/

/-- `Graph.extend` announces every change of a link set that it makes. -/
theorem announces_extend (g : Graph) (a : Addition) :
    Announces g (g.extend a).value (g.extend a).events := by
  refine ⟨fun signal _ => ?_, ?_⟩
  · exact ((gains_extend g a signal).distance_eq (nodup_linksOf _ signal)).symm
  · by_cases ha : g.Has a
    · rw [extend_of_has ha]
      exact fun _ h => nomatch h
    · rw [extend_of_not_has ha]
      cases a with
      | node name => exact every_mem_names sameFrame_link (fun P g e => Permits.link) _ _
      | edge e =>
        rw [enter, names_storeEdge]
        exact Permits.link (g := { g with edges := (g.edges.insert e).1 }) ⟨id, id⟩

/-- Settling keeps the nodes, or it takes the addition back. -/
theorem settle_cases (g : Graph) (c : Change) (takeBack : Graph → Traced LinkSignal Graph) :
    (∃ g', g'.nodes = g.nodes ∧ g.settle c takeBack = pure (g', .ok true)) ∨
      ∃ err, g.settle c takeBack = (fun g' => (g', .error err)) <$> takeBack g := by
  unfold settle
  split_ifs
  · exact Or.inl ⟨g.record c, rfl, rfl⟩
  · cases g.findCycle? with
    | none => exact Or.inl ⟨g, rfl, rfl⟩
    | some path => exact Or.inr ⟨⟨path⟩, (map_eq_pure_bind _ _).symm⟩

/-- An addition that is not refused announces every change of a link set that it makes. -/
theorem announces_add {a : Addition} {new : Bool} (hok : (g.add a).value.2 = .ok new) :
    Announces g (g.add a).value.1 (g.add a).events := by
  by_cases ha : g.Has a
  · rw [add_of_has ha]
    exact Announces.refl g
  · rw [add_of_not_has ha] at hok ⊢
    rcases settle_cases (g.extend a).value a.change (takeBack · a) with
      ⟨g', hnodes, hsettle⟩ | ⟨err, hsettle⟩
    · rw [Traced.value_bind, Traced.events_bind, hsettle, Traced.events_pure, List.append_nil]
      exact (announces_extend g a).of_nodes hnodes
    · rw [Traced.value_bind, hsettle] at hok
      cases hok

/-! ## Removals -/

/-- When a node goes, the link sets of the other names only shrink. -/
theorem exceeds_detach (g : Graph) {name : String} {signal : LinkSignal} (hname : signal.name ≠ name) :
    Exceeds (g.linksOf signal) ((g.detach name).value.linksOf signal)
      ((g.detach name).events.count signal) := by
  by_cases hmem : name ∈ g.names
  · have hstart : linksOf { g with nodes := g.nodes.erase name } signal = g.linksOf signal :=
      linksOf_congr ((OrderedMap.get?_erase ..).trans (if_neg hname))
    rw [detach_eq name hmem, ← hstart]
    exact loses_unlinkAll _ _ signal
  · rw [detach_of_not_mem name hmem]
    exact Exceeds.refl _

/-- Dropping an edge only shrinks link sets, by a name for every signal. -/
theorem loses_dropEdge (g : Graph) (e : Edge) : Loses g (g.dropEdge e) := fun signal => by
  have hstart : linksOf { g with edges := (g.edges.erase e).1 } signal = g.linksOf signal :=
    linksOf_congr rfl
  exact hstart ▸ loses_unlink _ e signal

/-- `Graph.removeNode` announces every change it makes to the links of the nodes that stay. -/
theorem announces_removeNode (g : Graph) (name : String) :
    Announces g (g.removeNode name).value.1 (g.removeNode name).events := by
  by_cases hname : name ∈ g.names
  · obtain ⟨node, hnode⟩ := mem_names_iff.1 hname
    obtain ⟨place, hplace⟩ := indexOf?_of_mem hname
    have hdetach : Announces g (g.detach name).value (g.detach name).events := by
      refine ⟨fun signal hsignal => ?_, ?_⟩
      · rw [names_detach, List.mem_filter, decide_eq_true_eq] at hsignal
        rw [distance_comm, (exceeds_detach g hsignal.2).distance_eq (nodup_linksOf g signal)]
      · rw [detach_eq name hname]
        exact every_mem_names sameFrame_unlink (fun P g e => Permits.unlink) _ _
    rw [removeNode_eq hnode hplace, Traced.value_map, Traced.events_map]
    exact hdetach.of_nodes rfl
  · rw [removeNode_of_not_mem hname]
    exact Announces.refl g

/-- `Graph.removeEdge` announces every change of a link set that it makes. -/
theorem announces_removeEdge (g : Graph) (e : Edge) :
    Announces g (g.removeEdge e).value.1 (g.removeEdge e).events := by
  by_cases he : e ∈ g.edges.toList
  · have hdrop : Announces g (g.dropEdge e).value (g.dropEdge e).events := by
      refine ⟨fun signal _ => ?_, ?_⟩
      · rw [distance_comm, (loses_dropEdge g e signal).distance_eq (nodup_linksOf g signal)]
      · rw [names_dropEdge]
        exact Permits.unlink (g := { g with edges := (g.edges.erase e).1 }) ⟨id, id⟩
    rw [removeEdge_of_mem he, Traced.value_map, Traced.events_map]
    exact hdrop.of_nodes rfl
  · rw [removeEdge_of_not_mem he]
    exact Announces.refl g

/-! ## Refused additions -/

/-- Taking an addition back only takes links from the names that stay. -/
theorem exceeds_takeBack (g : Graph) {a : Addition} {signal : LinkSignal} (ha : a ≠ .node signal.name) :
    Exceeds (g.linksOf signal) ((g.takeBack a).value.linksOf signal)
      ((g.takeBack a).events.count signal) := by
  cases a with
  | node name => exact exceeds_detach g fun hname => ha (hname ▸ rfl)
  | edge e => exact loses_dropEdge g e signal

/-- What a refused addition announces about a node, it announces when it is made and once more when it is
taken back. -/
theorem WellFormed.even_count_of_refused (hg : g.WellFormed) {a : Addition} {err : CycleError}
    (herr : (g.add a).value.2 = .error err) {signal : LinkSignal}
    (hname : signal.name ∈ (g.add a).value.1.names) : Even ((g.add a).events.count signal) := by
  have ha : ¬ g.Has a := fun ha => by
    rw [add_of_has ha] at herr
    cases herr
  have hback : (g.add a).value.1 = g := by
    cases a with
    | node name => exact hg.addNode_of_refused herr
    | edge e => exact hg.addEdge_of_refused herr
  rw [hback] at hname
  rw [add_of_not_has ha, Traced.value_bind] at herr hback
  rw [add_of_not_has ha, Traced.events_bind, List.count_append]
  rcases settle_cases (g.extend a).value a.change (takeBack · a) with
    ⟨g', -, hsettle⟩ | ⟨err', hsettle⟩
  · rw [hsettle] at herr
    cases herr
  · rw [hsettle] at hback ⊢
    have hgone : ((g.extend a).value.takeBack a).value = g := hback
    -- The same names come and go, so they are announced equally often.
    have hgain := gains_extend g a signal
    have hstays : a ≠ .node signal.name := fun h => ha (h ▸ hname)
    have hloss := exceeds_takeBack (g.extend a).value hstays
    rw [hgone] at hloss
    rw [Traced.events_map, hgain.unique hloss]
    exact Even.add_self _

end Graph

/-! ## Sessions -/

/-- The command changes one node or one edge. -/
def GraphCommand.IsEdit : GraphCommand → Prop
  | .addNode _ | .removeNode _ | .addEdge _ | .removeEdge _ => True
  | _ => False

namespace GraphSession

open Recalc.Graph

variable {s : GraphSession}

/-- Storing a result in the session adds no signals to those of the operation. -/
theorem events_store (s : GraphSession) {α : Type} (reply : α → GraphReply)
    (t : Traced LinkSignal (Graph × α)) : (s.store reply t).events = t.events :=
  List.append_nil _

/-- A change that is not refused announces what it changes. -/
theorem announces_perform {c : GraphCommand} (hc : c.IsEdit)
    (hok : (s.perform c).value.2.isRefusal = false) :
    Announces s.graph (s.perform c).value.1.graph (s.perform c).events := by
  have hadd : ∀ a : Addition, (s.perform a.command).value.2.isRefusal = false →
      Announces s.graph (s.perform a.command).value.1.graph (s.perform a.command).events := by
    intro a hok
    rw [perform_command] at hok ⊢
    obtain ⟨new, hnew⟩ := isRefusal_ofExcept.1 hok
    rw [events_store]
    exact announces_add hnew
  cases c with
  | addNode name => exact hadd (.node name) hok
  | addEdge e => exact hadd (.edge e) hok
  | removeNode name =>
    rw [perform, events_store]
    exact announces_removeNode s.graph name
  | removeEdge e =>
    rw [perform, events_store]
    exact announces_removeEdge s.graph e
  | _ => exact hc.elim

/-- A change that is refused announces everything twice. -/
theorem even_count_perform (hs : s.graph.WellFormed) {c : GraphCommand} (hc : c.IsEdit)
    (hrefused : (s.perform c).value.2.isRefusal = true) {signal : LinkSignal}
    (hname : signal.name ∈ (s.perform c).value.1.graph.names) :
    Even ((s.perform c).events.count signal) := by
  have hadd : ∀ a : Addition, (s.perform a.command).value.2.isRefusal = true →
      signal.name ∈ (s.perform a.command).value.1.graph.names →
      Even ((s.perform a.command).events.count signal) := by
    intro a hrefused hname
    rw [perform_command] at hrefused hname ⊢
    rw [events_store]
    cases hreply : (s.graph.add a).value.2 with
    | error err => exact hs.even_count_of_refused hreply hname
    | ok new =>
      have hflag : (GraphReply.ofExcept (s.graph.add a).value.2).isRefusal = true := hrefused
      rw [hreply] at hflag
      cases hflag
  cases c with
  | addNode name => exact hadd (.node name) hrefused hname
  | addEdge e => exact hadd (.edge e) hrefused hname
  -- A removal is never refused.
  | removeNode name => cases hrefused
  | removeEdge e => cases hrefused
  | _ => exact hc.elim

/-- Whatever was done to a graph before, and whether or not a batch is open: adding or removing a node or an
edge announces, for each node that is there afterwards, as many changes of its dependencies and of its
dependents as there are names by which these differ, and nothing about other names. Only if it is refused,
each node that is there afterwards is named an even number of times, for either set. -/
theorem signals_of_commands (commands : List GraphCommand) {c : GraphCommand} (hc : c.IsEdit) :
    let s := (performAll {} commands).value
    let told := (s.perform c).events
    let reply := (s.perform c).value.2
    let before := s.graph
    let after := (s.perform c).value.1.graph
    (reply.isRefusal = false →
      (∀ n ∈ after.names,
        told.count (.dependencies n) = distance (before.dependenciesOf n) (after.dependenciesOf n) ∧
        told.count (.dependents n) = distance (before.dependentsOf n) (after.dependentsOf n)) ∧
      ∀ signal ∈ told, signal.name ∈ after.names) ∧
    (reply.isRefusal = true → ∀ n ∈ after.names,
      Even (told.count (.dependencies n)) ∧ Even (told.count (.dependents n))) := by
  intro s told reply before after
  have hs : s.graph.WellFormed := (sound_of_commands commands).wellFormed
  refine ⟨fun hok => ?_, fun hrefused n hn => ?_⟩
  · have htold : Announces before after told := announces_perform hc hok
    exact ⟨fun n hn => ⟨htold.count_eq (.dependencies n) hn, htold.count_eq (.dependents n) hn⟩,
      htold.mem_names⟩
  · exact ⟨even_count_perform hs hc hrefused hn, even_count_perform hs hc hrefused hn⟩

/-- A node comes that reads itself and one other node and is read by two more. Inside a batch its links are
announced once each, also the one to itself; outside it is refused, and what would have read it is named
twice. -/
theorem signals_of_commands_self_edge :
    let commands : List GraphCommand :=
      [.addEdges [⟨"a", "a"⟩, ⟨"a", "b"⟩, ⟨"b", "a"⟩, ⟨"c", "a"⟩], .addNodes ["b", "c"]]
    let outside := (performAll {} commands).value.perform (.addNode "a")
    let inside := (performAll {} (commands ++ [.beginBatch])).value.perform (.addNode "a")
    (inside.value.2.isRefusal = false ∧ inside.events.count (.dependencies "a") = 2 ∧
        inside.events.count (.dependents "a") = 3 ∧ inside.events.count (.dependencies "c") = 1) ∧
      outside.value.2.isRefusal = true ∧ "c" ∈ outside.value.1.graph.names ∧
      Even (outside.events.count (.dependencies "c")) := by
  intro commands outside inside
  obtain ⟨hinside, -⟩ := signals_of_commands (commands ++ [.beginBatch]) (c := .addNode "a") trivial
  obtain ⟨-, houtside⟩ := signals_of_commands commands (c := .addNode "a") trivial
  have hok : inside.value.2.isRefusal = false := by decide
  have hrefused : outside.value.2.isRefusal = true := by decide
  have hcount := (hinside hok).1
  have ha := hcount "a" (by decide)
  have hc := hcount "c" (by decide)
  have heven := houtside hrefused "c" (by decide)
  exact ⟨⟨hok, ha.1.trans (by decide), ha.2.trans (by decide), hc.1.trans (by decide)⟩, hrefused,
    by decide, heven.1⟩

end GraphSession

end Recalc
