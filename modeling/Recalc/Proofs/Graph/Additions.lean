import Recalc.Proofs.Graph.Extend
import Recalc.Proofs.Graph.Rollback

/-!
# Additions as a unit

Additions can be made one at a time, each with its own search for a cycle, or as a unit with one search
at the end: inside a batch, inside a guard, or by an operation in the plural. Both ways extend the graph
by the same additions, so they differ at most in when a cycle is found. Since a cycle closed on the way
is still there at the end, it makes no difference: a list of additions is accepted in the one way exactly
if it is accepted in the other, and exactly if the graph that it extends to has no cycle. That graph does
not depend on the order, up to the order of what it holds.
-/

namespace Recalc

/-! ## Making additions as a unit -/

namespace Graph

variable {g : Graph}

/-- Extend the graph inside a batch of its own, and end the batch. -/
def addUnit (g : Graph) (as : List Addition) : Traced LinkSignal (Graph × Except CycleError Bool) := do
  let g' ← g.extendAll as
  (g'.withJournal (some (g.notedAll as))).endBatch

/-- Ending a batch without a cycle announces nothing. -/
theorem endBatch_of_acyclic {journal : List Change} (hj : g.journal = some journal)
    (hnone : g.findCycle? = none) : g.endBatch = pure (g.withJournal none, .ok true) := by
  simp only [endBatch, hj, hnone]
  rfl

/-- A unit that closes no cycle is kept, and ending it announces nothing. -/
theorem WellFormed.addUnit_of_acyclic (hg : g.WellFormed) (hb : g.inBatch = false)
    {as : List Addition}
    (hacyclic : ¬ HasCycle (g.extendAll as).value.names (g.extendAll as).value.edges.toList) :
    g.addUnit as = (fun g' => (g', .ok true)) <$> g.extendAll as := by
  have hwf : ((g.extendAll as).value.withJournal (some (g.notedAll as))).WellFormed :=
    (hg.extendAll as).withJournal _
  have hjournal : (g.extendAll as).value.journal = none := by
    rw [journal_extendAll, journal_eq_none hb]
  have hend : ((g.extendAll as).value.withJournal (some (g.notedAll as))).endBatch =
      pure ((g.extendAll as).value, .ok true) := by
    rw [endBatch_of_acyclic rfl (hwf.findCycle?_eq_none_iff.2 hacyclic)]
    show pure ((g.extendAll as).value.withJournal none, Except.ok true) = _
    rw [withJournal_of_journal_eq_none hjournal]
  rw [addUnit]
  refine Traced.ext ?_ ?_
  · rw [Traced.value_bind, hend]
    rfl
  · rw [Traced.events_bind, hend, Traced.events_map]
    simp

/-- A unit that closes a cycle is refused, and the graph is as it was. -/
theorem WellFormed.addUnit_of_cycle (hg : g.WellFormed) (hb : g.inBatch = false) {as : List Addition}
    (hcycle : HasCycle (g.extendAll as).value.names (g.extendAll as).value.edges.toList) :
    ∃ err, (g.addUnit as).value = (g, .error err) := by
  have hwf : ((g.extendAll as).value.withJournal (some (g.notedAll as))).WellFormed :=
    (hg.extendAll as).withJournal _
  have hjournal : (g.extendAll as).value.journal = none := by
    rw [journal_extendAll, journal_eq_none hb]
  obtain ⟨path, hpath⟩ := hwf.isSome_findCycle?_iff.2 hcycle
  refine ⟨⟨path⟩, ?_⟩
  have hundone : ((g.extendAll as).value.withJournal (some (g.notedAll as))).settled = g := by
    rw [settled_of_journal_eq_some rfl]
    show ((g.extendAll as).value.withJournal none).undoAll _ = g
    rw [withJournal_of_journal_eq_none hjournal, hg.undoAll_notedAll]
  rw [addUnit, Traced.value_bind]
  exact (value_endBatch_of_cycle rfl hpath).trans (by rw [hundone])

/-- Several things are added inside a batch by extending the graph and noting that. -/
theorem addAll_withJournal {α : Type} {addition : α → Addition}
    {add : Graph → α → Traced LinkSignal (Graph × Except CycleError Bool)}
    (hadd : ∀ g a, add g a = g.add (addition a)) (g : Graph) (journal : List Change) (as : List α) :
    ∃ new, addAll add (g.withJournal (some journal)) as =
      (fun g' => (g'.withJournal (some (g.notedAll (as.map addition) ++ journal)), .ok new)) <$>
        g.extendAll (as.map addition) := by
  induction as generalizing g journal with
  | nil => exact ⟨true, rfl⟩
  | cons a as ih =>
    obtain ⟨new, hrest⟩ := ih (g.extend (addition a)).value (g.noted (addition a) ++ journal)
    refine ⟨(decide ¬ g.Has (addition a)) && new, ?_⟩
    rw [addAll, hadd, add_withJournal, List.map_cons, extendAll_cons, notedAll]
    refine Traced.ext ?_ ?_
    · rw [Traced.value_bind, Traced.value_map]
      show (addAll add _ as >>= _).value = _
      rw [hrest, List.append_assoc]
      rfl
    · rw [Traced.events_bind, Traced.value_map, Traced.events_map, Traced.events_map,
        Traced.events_bind]
      show _ ++ ((addAll add _ as).events ++ _) = _
      rw [hrest]
      simp

/-- Outside a batch, several things are added as a unit. -/
theorem guarded_addAll {α : Type} (addition : α → Addition)
    (add : Graph → α → Traced LinkSignal (Graph × Except CycleError Bool))
    (hadd : ∀ g a, add g a = g.add (addition a)) (hb : g.inBatch = false) (as : List α) :
    ∃ new, g.guarded (addAll add · as) =
      (fun r => (r.1, r.2.map fun _ => new)) <$> g.addUnit (as.map addition) := by
  obtain ⟨new, hall⟩ := addAll_withJournal hadd g [] as
  rw [List.append_nil] at hall
  refine ⟨new, ?_⟩
  have hopened : g.opened = g.withJournal (some []) := rfl
  have hmap : ∀ r : Except CycleError Bool, (r.map fun _ => ()).map (fun _ => new) = r.map fun _ => new :=
    fun r => by cases r <;> rfl
  simp only [guarded, openGuard, beginBatch_of_not_inBatch hb, hopened, hall, addUnit]
  refine Traced.ext ?_ ?_
  · simp [commitGuard, hmap]
  · simp [commitGuard]

end Graph

/-! ## Runs of additions -/

/-- The command that makes an addition. -/
def Addition.command : Addition → GraphCommand
  | node name => .addNode name
  | edge e => .addEdge e

/-- The operation was refused because of a cycle. -/
def GraphReply.isRefusal : GraphReply → Bool
  | .refused _ => true
  | _ => false

/-- The commands make the additions as a unit. -/
inductive AsUnit : List Addition → List GraphCommand → Prop where
  /-- Inside a batch. -/
  | batch (as : List Addition) : AsUnit as (.beginBatch :: as.map Addition.command ++ [.endBatch])
  /-- Inside a guard. -/
  | guard (as : List Addition) : AsUnit as (.openGuard :: as.map Addition.command ++ [.commitGuard])
  /-- Nodes, by one operation. -/
  | nodes (names : List String) : AsUnit (names.map .node) [.addNodes names]
  /-- Edges, by one operation. -/
  | edges (es : List Edge) : AsUnit (es.map .edge) [.addEdges es]

namespace GraphSession

open Recalc.Graph

variable {s : GraphSession}

/-- The replies to a run of commands. -/
def replies (s : GraphSession) : List GraphCommand → List GraphReply
  | [] => []
  | c :: cs => (s.perform c).value.2 :: replies (s.perform c).value.1 cs

/-- None of the commands is refused. -/
def Accepts (s : GraphSession) (cs : List GraphCommand) : Prop :=
  ∀ r ∈ s.replies cs, r.isRefusal = false

instance (s : GraphSession) (cs : List GraphCommand) : Decidable (s.Accepts cs) :=
  inferInstanceAs (Decidable (∀ r ∈ s.replies cs, r.isRefusal = false))

/-- A run of commands performs the first and goes on from there, signals included. -/
theorem performAll_cons (s : GraphSession) (c : GraphCommand) (cs : List GraphCommand) :
    s.performAll (c :: cs) = s.perform c >>= fun r => r.1.performAll cs := by
  rw [performAll, List.foldlM_cons, bind_map_left]
  rfl

/-- A run of commands can be cut anywhere, signals included. -/
theorem performAll_append (s : GraphSession) (cs ds : List GraphCommand) :
    s.performAll (cs ++ ds) = s.performAll cs >>= (·.performAll ds) := List.foldlM_append

theorem accepts_nil (s : GraphSession) : s.Accepts [] := fun _ hr => nomatch hr

/-- A session accepts a run if it accepts the first command and, after that, the others. -/
theorem accepts_cons (s : GraphSession) (c : GraphCommand) (cs : List GraphCommand) :
    s.Accepts (c :: cs) ↔
      (s.perform c).value.2.isRefusal = false ∧ (s.perform c).value.1.Accepts cs := by
  simp [Accepts, replies]

/-- A session accepts a run if it accepts the first part and, after that, the second. -/
theorem accepts_append (s : GraphSession) (cs ds : List GraphCommand) :
    s.Accepts (cs ++ ds) ↔ s.Accepts cs ∧ (s.performAll cs).value.Accepts ds := by
  induction cs generalizing s with
  | nil => exact (and_iff_right s.accepts_nil).symm
  | cons c cs ih =>
    rw [List.cons_append, accepts_cons, ih, accepts_cons, value_performAll_cons, and_assoc]

/-- The reply to an addition is a refusal exactly if the addition failed. -/
theorem isRefusal_ofExcept {r : Except CycleError Bool} :
    (GraphReply.ofExcept r).isRefusal = false ↔ ∃ b, r = .ok b := by
  cases r with
  | error err => exact ⟨fun h => (nomatch h), fun ⟨_, h⟩ => (nomatch h)⟩
  | ok b => exact ⟨fun _ => ⟨b, rfl⟩, fun _ => rfl⟩

/-- Performing the command of an addition is making the addition on the graph. -/
theorem perform_command (s : GraphSession) (a : Addition) :
    s.perform a.command = s.store .ofExcept (s.graph.add a) := by cases a <;> rfl

/-! ## One at a time -/

/-- A session that accepts a run which starts with an addition makes that addition. -/
theorem Accepts.of_cons_command {a : Addition} {cs : List GraphCommand}
    (h : s.Accepts (a.command :: cs)) : ∃ new, (s.graph.add a).value.2 = .ok new := by
  rw [accepts_cons, perform_command] at h
  exact isRefusal_ofExcept.1 h.1

/-- Additions that close no cycle are accepted one at a time, and extend the graph. -/
theorem performAll_command_of_acyclic (hs : s.graph.Sound) (hb : s.graph.inBatch = false)
    (as : List Addition)
    (hacyclic : ¬ HasCycle (s.graph.extendAll as).value.names
      (s.graph.extendAll as).value.edges.toList) :
    s.Accepts (as.map Addition.command) ∧
      s.performAll (as.map Addition.command) =
        (fun graph => { s with graph }) <$> s.graph.extendAll as := by
  induction as generalizing s with
  | nil => exact ⟨s.accepts_nil, rfl⟩
  | cons a as ih =>
    rw [extendAll_cons, Traced.value_bind] at hacyclic
    -- A cycle closed by the first addition would still be there at the end.
    have hfirst : ¬ HasCycle (s.graph.extend a).value.names (s.graph.extend a).value.edges.toList :=
      fun h => hacyclic (hasCycle_extendAll as _ h)
    have hb' : (s.graph.extend a).value.inBatch = false := by
      rw [Graph.inBatch, journal_extend]
      exact hb
    have hsound := Sound.of_not_inBatch (hs.wellFormed.extend a) hb' hfirst
    have hstep : s.perform a.command = (fun g' => ({ s with graph := g' },
        .flag (decide ¬ s.graph.Has a))) <$> s.graph.extend a := by
      rw [perform_command, hs.wellFormed.add_of_acyclic hb hfirst, store, bind_map_left,
        map_eq_pure_bind]
      rfl
    obtain ⟨haccepts, hrest⟩ := ih (s := { s with graph := (s.graph.extend a).value }) hsound hb'
      hacyclic
    refine ⟨?_, ?_⟩
    · rw [List.map_cons, accepts_cons, hstep]
      exact ⟨rfl, haccepts⟩
    · rw [List.map_cons, performAll_cons, hstep, extendAll_cons]
      refine Traced.ext ?_ ?_
      · rw [Traced.value_bind, Traced.value_map, hrest]
        rfl
      · rw [Traced.events_bind, Traced.value_map, hrest]
        simp

/-- Additions are accepted one at a time exactly if all of them together close no cycle. -/
theorem accepts_command_iff (hs : s.graph.Sound) (hb : s.graph.inBatch = false) (as : List Addition) :
    s.Accepts (as.map Addition.command) ↔
      ¬ HasCycle (s.graph.extendAll as).value.names (s.graph.extendAll as).value.edges.toList := by
  refine ⟨fun haccepts => ?_, fun h => (performAll_command_of_acyclic hs hb as h).1⟩
  induction as generalizing s with
  | nil => exact hs.not_hasCycle hb
  | cons a as ih =>
    obtain ⟨new, hnew⟩ := haccepts.of_cons_command
    have hfirst : ¬ HasCycle (s.graph.extend a).value.names (s.graph.extend a).value.edges.toList := by
      intro hcycle
      obtain ⟨err, herr⟩ := hs.add_of_cycle hb hcycle
      cases hnew.symm.trans herr
    have hgraph : (s.graph.add a).value.1 = (s.graph.extend a).value := by
      rw [hs.wellFormed.add_of_acyclic hb hfirst]
      rfl
    have hb' : (s.graph.extend a).value.inBatch = false := by
      rw [Graph.inBatch, journal_extend]
      exact hb
    rw [extendAll_cons, Traced.value_bind]
    rw [List.map_cons, accepts_cons, perform_command] at haccepts
    have hrest : ({ s with graph := (s.graph.add a).value.1 } : GraphSession).Accepts
        (as.map Addition.command) := haccepts.2
    rw [hgraph] at hrest
    exact ih (s := { s with graph := (s.graph.extend a).value })
      (Sound.of_not_inBatch (hs.wellFormed.extend a) hb' hfirst) hb' hrest

/-! ## As a unit -/

/-- Inside a batch, additions are accepted and noted. -/
theorem performAll_command_inside (g : Graph) (guards : List BatchGuard) (journal : List Change)
    (as : List Addition) :
    let s : GraphSession := ⟨g.withJournal (some journal), guards⟩
    s.Accepts (as.map Addition.command) ∧
      s.performAll (as.map Addition.command) =
        (fun g' => ⟨g'.withJournal (some (g.notedAll as ++ journal)), guards⟩) <$> g.extendAll as := by
  intro s
  induction as generalizing g journal with
  | nil => exact ⟨s.accepts_nil, rfl⟩
  | cons a as ih =>
    have hstep : s.perform a.command =
        (fun g' => (⟨g'.withJournal (some (g.noted a ++ journal)), guards⟩,
          .flag (decide ¬ g.Has a))) <$> g.extend a := by
      rw [perform_command, add_withJournal, store, bind_map_left, map_eq_pure_bind]
      rfl
    obtain ⟨haccepts, hrest⟩ := ih (g.extend a).value (g.noted a ++ journal)
    refine ⟨?_, ?_⟩
    · rw [List.map_cons, accepts_cons, hstep]
      exact ⟨rfl, haccepts⟩
    · rw [List.map_cons, performAll_cons, hstep, extendAll_cons, notedAll, List.append_assoc]
      refine Traced.ext ?_ ?_
      · rw [Traced.value_bind, Traced.value_map, hrest]
        rfl
      · rw [Traced.events_bind, Traced.value_map, hrest]
        simp

/-- Additions between the opening and the ending of a batch. -/
theorem performAll_between {opening ending : GraphCommand} (guards : List BatchGuard)
    (reply : Except CycleError Bool → GraphReply)
    (hopening : s.perform opening = pure (⟨s.graph.opened, guards⟩, .flag true))
    (hending : ∀ g, perform ⟨g, guards⟩ ending =
      (fun r => (⟨r.1, s.guards⟩, reply r.2)) <$> g.endBatch)
    (hreply : ∀ r, (reply r).isRefusal = false ↔ ∃ b, r = .ok b) (as : List Addition) :
    s.performAll (opening :: as.map Addition.command ++ [ending]) =
        (fun r => { s with graph := r.1 }) <$> s.graph.addUnit as ∧
      (s.Accepts (opening :: as.map Addition.command ++ [ending]) ↔
        ∃ b, (s.graph.addUnit as).value.2 = .ok b) := by
  have hinside := performAll_command_inside s.graph guards [] as
  simp only [List.append_nil] at hinside
  obtain ⟨haccepts, hrun⟩ := hinside
  rw [List.cons_append, performAll_cons, hopening, pure_bind, accepts_cons, hopening]
  show performAll ⟨s.graph.withJournal (some []), guards⟩ _ = _ ∧
    (_ ∧ Accepts ⟨s.graph.withJournal (some []), guards⟩ _ ↔ _)
  refine ⟨?_, ?_⟩
  · rw [performAll_append, hrun, addUnit, bind_map_left, map_bind]
    refine bind_congr fun g' => ?_
    rw [performAll_cons, hending, bind_map_left, map_eq_pure_bind]
    rfl
  · rw [accepts_append, hrun, accepts_cons, Traced.value_map, hending, Traced.value_map, hreply]
    refine ⟨fun h => h.2.2.1, fun h => ⟨rfl, haccepts, h, accepts_nil _⟩⟩

/-- Another reply for an outcome that is accepted makes no difference to whether it is. -/
theorem exists_map_eq_ok {ε : Type} (r : Except ε Bool) (reply : Bool) :
    (∃ b, r.map (fun _ => reply) = .ok b) ↔ ∃ b, r = .ok b := by
  constructor
  · rintro ⟨b, h⟩
    cases r with
    | error err => cases h
    | ok b => exact ⟨b, rfl⟩
  · rintro ⟨b, rfl⟩
    exact ⟨reply, rfl⟩

/-- Additions by one operation that adds several things. -/
theorem performAll_plural {c : GraphCommand} {as : List Addition} (new : Bool)
    (hc : s.perform c = s.store .ofExcept ((fun r => (r.1, r.2.map fun _ => new)) <$>
      s.graph.addUnit as)) :
    s.performAll [c] = (fun r => { s with graph := r.1 }) <$> s.graph.addUnit as ∧
      (s.Accepts [c] ↔ ∃ b, (s.graph.addUnit as).value.2 = .ok b) := by
  refine ⟨?_, ?_⟩
  · rw [performAll_cons, hc, store, bind_map_left, bind_assoc, map_eq_pure_bind]
    rfl
  · rw [accepts_cons, hc, and_iff_left (accepts_nil _)]
    show (GraphReply.ofExcept ((s.graph.addUnit as).value.2.map fun _ => new)).isRefusal = false ↔ _
    rw [isRefusal_ofExcept, exists_map_eq_ok]

/-- However additions are made as a unit, they extend the graph and end the batch. -/
theorem performAll_asUnit {as : List Addition} {cs : List GraphCommand} (hunit : AsUnit as cs)
    (hb : s.graph.inBatch = false) :
    s.performAll cs = (fun r => { s with graph := r.1 }) <$> s.graph.addUnit as ∧
      (s.Accepts cs ↔ ∃ b, (s.graph.addUnit as).value.2 = .ok b) := by
  cases hunit with
  | batch =>
    refine performAll_between s.guards .ofExcept ?_ (fun g => ?_) (fun r => isRefusal_ofExcept) as
    · rw [perform, beginBatch_of_not_inBatch hb]
      rfl
    · rw [map_eq_pure_bind]
      rfl
  | guard =>
    refine performAll_between (⟨true⟩ :: s.guards) (fun r => .ofExcept (r.map fun _ => true)) ?_
      (fun g => ?_) (fun r => ?_) as
    · rw [perform, openGuard, beginBatch_of_not_inBatch hb]
    · simp only [perform, commitGuard, if_true, store, bind_assoc, pure_bind, map_eq_pure_bind]
      refine bind_congr fun r => ?_
      obtain ⟨g', err | b⟩ := r <;> rfl
    · rw [isRefusal_ofExcept, exists_map_eq_ok]
  | nodes names =>
    obtain ⟨new, hnew⟩ := guarded_addAll .node addNode (fun _ _ => rfl) hb names
    exact performAll_plural new (by rw [← hnew]; rfl)
  | edges es =>
    obtain ⟨new, hnew⟩ := guarded_addAll .edge addEdge (fun _ _ => rfl) hb es
    exact performAll_plural new (by rw [← hnew]; rfl)

/-- Outside a batch, a unit of additions is accepted exactly if the additions are accepted one at a time,
and then the session afterwards and the signals are the same; otherwise the session is as it was. -/
theorem performAll_asUnit_cases (hs : s.graph.Sound) (hb : s.graph.inBatch = false)
    {as : List Addition} {cs : List GraphCommand} (hunit : AsUnit as cs) :
    (s.Accepts cs ↔ s.Accepts (as.map Addition.command)) ∧
    (s.Accepts cs → s.performAll cs = s.performAll (as.map Addition.command)) ∧
    (¬ s.Accepts cs → (s.performAll cs).value = s) := by
  obtain ⟨hrun, haccepts⟩ := performAll_asUnit hunit hb
  rw [haccepts, hrun, accepts_command_iff hs hb]
  by_cases hcycle : HasCycle (s.graph.extendAll as).value.names
      (s.graph.extendAll as).value.edges.toList
  · obtain ⟨err, herr⟩ := hs.wellFormed.addUnit_of_cycle hb hcycle
    rw [Traced.value_map, herr]
    exact ⟨⟨fun ⟨_, h⟩ => (nomatch h), fun h => absurd hcycle h⟩, fun ⟨_, h⟩ => (nomatch h),
      fun _ => rfl⟩
  · rw [hs.wellFormed.addUnit_of_acyclic hb hcycle, (performAll_command_of_acyclic hs hb as hcycle).2]
    have hok : ∃ b : Bool, Except.ok (ε := CycleError) true = .ok b := ⟨true, rfl⟩
    refine ⟨iff_of_true hok hcycle, fun _ => ?_, fun h => absurd hok h⟩
    rw [Functor.map_map]

/-- In whatever order additions are made one at a time, they are accepted or not, and those accepted
result in the same nodes, edges, links and marks. -/
theorem performAll_command_perm (hs : s.graph.Sound) (hb : s.graph.inBatch = false)
    {as as' : List Addition} (hperm : as'.Perm as) :
    (s.Accepts (as'.map Addition.command) ↔ s.Accepts (as.map Addition.command)) ∧
    (s.Accepts (as.map Addition.command) →
      let g := (s.performAll (as.map Addition.command)).value.graph
      let g' := (s.performAll (as'.map Addition.command)).value.graph
      (∀ n, n ∈ g'.names ↔ n ∈ g.names) ∧
      (∀ e, e ∈ g'.edges.toList ↔ e ∈ g.edges.toList) ∧
      (∀ n t, t ∈ g'.dependenciesOf n ↔ t ∈ g.dependenciesOf n) ∧
      (∀ n f, f ∈ g'.dependentsOf n ↔ f ∈ g.dependentsOf n) ∧
      ∀ n, g'.mark? n = g.mark? n) := by
  obtain ⟨hnames, hedges, hdependencies, hdependents, hmark⟩ := hs.wellFormed.extendAll_perm hperm
  -- The order of the additions makes no difference to what depends on what.
  have hcycle : HasCycle (s.graph.extendAll as').value.names
        (s.graph.extendAll as').value.edges.toList ↔
      HasCycle (s.graph.extendAll as).value.names (s.graph.extendAll as).value.edges.toList :=
    hasCycle_congr fun a b => and_congr (hedges _) (and_congr (hnames a) (hnames b))
  rw [accepts_command_iff hs hb, accepts_command_iff hs hb]
  refine ⟨not_congr hcycle, fun hacyclic => ?_⟩
  rw [(performAll_command_of_acyclic hs hb as hacyclic).2,
    (performAll_command_of_acyclic hs hb as' fun h => hacyclic (hcycle.1 h)).2]
  exact ⟨hnames, hedges, hdependencies, hdependents, hmark⟩

/-- Whatever was done to a graph before: outside a batch, additions made as a unit (inside a batch or a
guard, or by one operation) are accepted exactly if they are accepted one at a time, and then the session
afterwards and the signals are the same; if the unit is refused, the session is as it was. In any other
order, as a unit or one at a time, the same additions are accepted too, and then the graph has the same
nodes, edges, links and marks. -/
theorem additions_of_commands (commands : List GraphCommand) (as : List Addition)
    (hb : (performAll {} commands).value.graph.inBatch = false) :
    let s := (performAll {} commands).value
    (∀ cs, AsUnit as cs →
      (s.Accepts cs ↔ s.Accepts (as.map Addition.command)) ∧
      (s.Accepts cs → s.performAll cs = s.performAll (as.map Addition.command)) ∧
      (¬ s.Accepts cs → (s.performAll cs).value = s)) ∧
    ∀ (as' : List Addition) (cs' : List GraphCommand), as'.Perm as →
      cs' = as'.map Addition.command ∨ AsUnit as' cs' →
      (s.Accepts cs' ↔ s.Accepts (as.map Addition.command)) ∧
      (s.Accepts cs' →
        let g := (s.performAll (as.map Addition.command)).value.graph
        let g' := (s.performAll cs').value.graph
        (∀ n, n ∈ g'.names ↔ n ∈ g.names) ∧
        (∀ e, e ∈ g'.edges.toList ↔ e ∈ g.edges.toList) ∧
        (∀ n t, t ∈ g'.dependenciesOf n ↔ t ∈ g.dependenciesOf n) ∧
        (∀ n f, f ∈ g'.dependentsOf n ↔ f ∈ g.dependentsOf n) ∧
        ∀ n, g'.mark? n = g.mark? n) := by
  intro s
  have hs : s.graph.Sound := sound_of_commands commands
  refine ⟨fun cs hunit => performAll_asUnit_cases hs hb hunit, fun as' cs' hperm hcs' => ?_⟩
  obtain ⟨hiff, hsame⟩ := performAll_command_perm hs hb hperm
  rcases hcs' with rfl | hunit
  · exact ⟨hiff, fun h => hsame (hiff.1 h)⟩
  · obtain ⟨haccepts, hrun, -⟩ := performAll_asUnit_cases hs hb hunit
    refine ⟨haccepts.trans hiff, fun h => ?_⟩
    rw [hrun h]
    exact hsame (hiff.1 (haccepts.1 h))

/-- An edge may come before the node that it leads to, and the other way round; with an edge back, the
batch is refused in any order and leaves the graph as it was. -/
theorem additions_of_commands_edge_first :
    let s := (performAll {} [.addNode "a", .addEdge ⟨"c", "b"⟩]).value
    let as : List Addition := [.edge ⟨"a", "b"⟩, .node "b"]
    let back : List Addition := .edge ⟨"b", "a"⟩ :: as
    s.graph.inBatch = false ∧
      s.Accepts (as.map Addition.command) ∧
      s.performAll (.beginBatch :: as.map Addition.command ++ [.endBatch]) =
        s.performAll (as.map Addition.command) ∧
      s.Accepts (as.reverse.map Addition.command) ∧
      ¬ s.Accepts (back.map Addition.command) ∧
      (s.performAll (.beginBatch :: back.map Addition.command ++ [.endBatch])).value = s := by
  intro s as back
  have hb : s.graph.inBatch = false := by decide
  obtain ⟨hunit, hperm⟩ := additions_of_commands _ as hb
  obtain ⟨hunit', -⟩ := additions_of_commands _ back hb
  have haccepts : s.Accepts (as.map Addition.command) := by decide
  have hrefuses : ¬ s.Accepts (back.map Addition.command) := by decide
  have hbatch := hunit _ (.batch as)
  have hbatch' := hunit' _ (.batch back)
  exact ⟨hb, haccepts, hbatch.2.1 (hbatch.1.2 haccepts),
    (hperm _ _ as.reverse_perm (.inl rfl)).1.2 haccepts, hrefuses,
    hbatch'.2.2 fun h => hrefuses (hbatch'.1.1 h)⟩

end GraphSession

end Recalc
