import Recalc.Proofs.Host.Sum
import Recalc.Proofs.Sheet.LinkNews
import Recalc.Proofs.Sheet.Upkeep

/-!
# The course of an edit

A structural edit shows in three stages: the structure changes, the equations hear of their links, and
the group is evaluated if the sheet updates on its own. In the middle stage every equation that is there
then hears exactly once of its links if they changed, and not at all if they did not
(`linkNews_of_edit`).
-/

namespace Recalc

/-- The stage of an edit that an update of an equation belongs to, by what it says. -/
def EquationFlags.stage (flags : EquationFlags) : Nat :=
  if EquationFlags.tellLinks flags then 1
  else if flags.contains (.of .content) || flags.contains (.of .kind) then 0
  else 2

/-- The stage of an edit that an event belongs to: the structure changes (0), equations hear of their
links (1), equations are evaluated (2). -/
def Event.stage : Event → Nat
  | .parse .. => 0
  | .run .. => 2
  | .announce (.equationUpdated _ flags) => EquationFlags.stage flags
  | .announce _ => 0

/-- The operation changes the structure: it adds, edits or removes a group. -/
def SheetOperation.isEdit : SheetOperation → Bool
  | .addGroup _ | .editGroup .. | .removeGroup _ => true
  | _ => false

/-- The news of links in two lists of events are those of the first and then those of the second. -/
theorem linkNews_append (n : String) (before after : List Event) :
    linkNews n (before ++ after) = linkNews n before ++ linkNews n after := List.filterMap_append ..

/-- Other stages tell nothing of links. -/
theorem linkNews_of_stage {n : String} {events : List Event} (h : ∀ e ∈ events, e.stage ≠ 1) :
    linkNews n events = [] := by
  refine List.filterMap_eq_nil_iff.2 fun event hevent => ?_
  have hstage := h event hevent
  unfold Event.stage at hstage
  unfold Event.linkNews?
  split
  · next e flags =>
    have hsilent : EquationFlags.tellLinks flags ≠ true := fun htell => by
      simp [EquationFlags.stage, htell] at hstage
    simp [hsilent]
  · rfl

namespace Graph

variable {g g' h : Graph} {detached : List String} {attached : List ParseItem} {n : String}

/-- Links that are the same as sets are no change of links, whatever their order. -/
theorem linkChange_of_iff (hdeps : ∀ d, d ∈ g'.dependenciesOf n ↔ d ∈ g.dependenciesOf n)
    (hdependents : ∀ f, f ∈ g'.dependentsOf n ↔ f ∈ g.dependentsOf n) :
    (g.linkChange g' n).isEmpty = true := by
  have hd : (g'.dependenciesOf n).toFinset = (g.dependenciesOf n).toFinset :=
    Finset.ext fun d => by rw [List.mem_toFinset, List.mem_toFinset, hdeps]
  have hf : (g'.dependentsOf n).toFinset = (g.dependentsOf n).toFinset :=
    Finset.ext fun f => by rw [List.mem_toFinset, List.mem_toFinset, hdependents]
  simp only [linkChange, hd, hf, ne_eq, not_true_eq_false, decide_false]
  decide

/-- The links of names that are not touched do not change. -/
theorem Rewired.linkChange_of_far (hrewired : Rewired g detached attached g') (hg : g.WellFormed)
    (hg' : g'.WellFormed) (hn : n ∉ g.touchedBy detached attached) :
    (g.linkChange g' n).isEmpty = true := by
  have hnot := (mem_touchedBy hg).not.1 hn
  rw [not_or] at hnot
  have hdetached : n ∉ detached := fun h => hnot.1 ⟨n, Or.inl h, Or.inl rfl⟩
  have hattached : n ∉ attached.map (·.name) := fun h => hnot.1 ⟨n, Or.inr h, Or.inl rfl⟩
  -- Nothing that it is linked to by an edge comes or goes.
  have hkept : ∀ m, ⟨n, m⟩ ∈ g.edges.toList ∨ ⟨m, n⟩ ∈ g.edges.toList →
      m ∉ detached ∧ m ∉ attached.map (·.name) := by
    intro m hedge
    exact ⟨fun h => hnot.1 ⟨m, Or.inl h, Or.inr hedge.symm⟩,
      fun h => hnot.1 ⟨m, Or.inr h, Or.inr hedge.symm⟩⟩
  have hname : ∀ m, m ∉ detached ∧ m ∉ attached.map (·.name) → (m ∈ g'.names ↔ m ∈ g.names) := by
    intro m hm
    rw [hrewired.mem_names, or_iff_left hm.2, and_iff_left hm.1]
  have hdeps : ∀ d, d ∈ g'.dependenciesOf n ↔ d ∈ g.dependenciesOf n := by
    intro d
    rw [hg'.mem_dependenciesOf, hg.mem_dependenciesOf, Depends, Depends, DependsIn, DependsIn,
      hrewired.mem_edges_of_kept hdetached hattached]
    refine and_congr_right fun hedge => ?_
    rw [hname n ⟨hdetached, hattached⟩, hname d (hkept d (Or.inl hedge))]
  have hdependents : ∀ f, f ∈ g'.dependentsOf n ↔ f ∈ g.dependentsOf n := by
    intro f
    have hread : ¬ ∃ item ∈ attached, ⟨f, n⟩ ∈ itemEdges item := by
      rintro ⟨item, hitem, hedge⟩
      exact hnot.2 ⟨item, hitem, (mem_itemEdges.1 hedge).2⟩
    have hedges : ⟨f, n⟩ ∈ g'.edges.toList ↔ ⟨f, n⟩ ∈ g.edges.toList := by
      rw [hrewired.mem_edges, or_iff_left hread]
      exact ⟨And.left, fun hedge => ⟨hedge, hkept f (Or.inr hedge)⟩⟩
    rw [hg'.mem_dependentsOf, hg.mem_dependentsOf, Depends, Depends, DependsIn, DependsIn, hedges]
    refine and_congr_right fun hedge => ?_
    rw [hname n ⟨hdetached, hattached⟩, hname f (hkept f (Or.inr hedge))]
  exact linkChange_of_iff hdeps hdependents

/-- How links change is a matter of the shape of the later graph. -/
theorem linkChange_congr (hh : SameShape h g') : g.linkChange h n = g.linkChange g' n := by
  rw [linkChange, linkChange, hh.dependenciesOf, hh.dependentsOf]

end Graph

namespace Sheet

open Recalc.Graph

variable {host : Host} {s s' : Sheet} {graph : Graph} {pending : OrderedMap String EquationFlags}
  {detached seeds : List String} {attached : List ParseItem} {α : Type}

/-! ## Structural changes -/

/-- The events belong to a stage. -/
abbrev AtStage (k : Nat) (t : Traced Event α) : Prop := t.Every (·.stage = k)

/-- Announcing an event stays at the stage of the event. -/
theorem atStage_announce {k : Nat} {event : Event} (h : event.stage = k) :
    AtStage k (Traced.announce event) := Traced.Every.announce h

/-- Announcing something of what is found, if it is found. -/
theorem atStage_announce? {β : Type} {k : Nat} {found : Option β} {event : β → Event}
    (h : ∀ b, (event b).stage = k) : AtStage k (Traced.announce? (found.map event)) := by
  refine Traced.Every.announce? fun e he => ?_
  obtain ⟨b, -, rfl⟩ := Option.map_eq_some_iff.1 he
  exact h b

/-- Announcing an update of an equation stays at the stage of its flags. -/
theorem atStage_announceUpdate (s : Sheet) (name : String) {flags : EquationFlags} {k : Nat}
    (hk : EquationFlags.stage flags = k) : AtStage k (s.announceUpdate name flags) :=
  atStage_announce? fun _ => hk

theorem atStage_createGroup (s : Sheet) (statement : String) (items : List ParseItem) :
    AtStage 0 (s.createGroup statement items) := by
  unfold createGroup
  refine Traced.Every.bind (Traced.Every.forM fun e _ => atStage_announce rfl) ?_
  exact Traced.Every.bind (atStage_announce rfl) (Traced.Every.pure _)

theorem atStage_destroy (s : Sheet) (name : String) : AtStage 0 (s.destroy name) := by
  unfold destroy
  refine Traced.Every.bind (atStage_announce? fun _ => rfl) ?_
  exact Traced.Every.bind (atStage_announce rfl) (Traced.Every.pure _)

theorem atStage_revise (s : Sheet) (item : ParseItem) : AtStage 0 (s.revise item) :=
  Traced.Every.bind (atStage_announceUpdate _ _ (by decide)) (Traced.Every.pure _)

theorem atStage_introduce (id : GroupId) (s : Sheet) (item : ParseItem) :
    AtStage 0 (introduce id s item) :=
  Traced.Every.bind (atStage_announce? fun _ => rfl) (Traced.Every.pure _)

theorem atStage_destroys (s : Sheet) (names : List String) : AtStage 0 (names.foldlM destroy s) :=
  Traced.Every.foldlM fun s n => atStage_destroy s n

theorem atStage_applyDiff (s : Sheet) (id : GroupId) (statement : String) (items : List ParseItem)
    (d : GroupDiff) : AtStage 0 (s.applyDiff id statement items d) := by
  unfold applyDiff
  refine Traced.Every.bind (atStage_destroys s d.removed) ?_
  refine Traced.Every.bind (Traced.Every.foldlM fun s item => atStage_revise s item) ?_
  refine Traced.Every.bind (Traced.Every.foldlM fun s item => atStage_introduce id s item) ?_
  exact Traced.Every.bind (atStage_announce? fun _ => rfl) (Traced.Every.pure _)

/-! ## Evaluations -/

/-- `Sheet.evaluate` tells of evaluation only. -/
theorem atStage_evaluate (host : Host) (s : Sheet) (name : String) :
    AtStage 2 (s.evaluate host name) := by
  unfold evaluate
  cases s.equation? name with
  | none => exact Traced.Every.pure s
  | some e =>
    refine Traced.Every.bind (atStage_announce rfl) ?_
    exact Traced.Every.bind (atStage_announceUpdate _ _ (by decide)) (Traced.Every.pure _)

/-- A visit of an update pass tells of evaluation only. -/
theorem atStage_visit (host : Host) (cancelled : Nat → Bool) (p : UpdatePass) (name : String) :
    AtStage 2 (p.visit host cancelled name) := by
  unfold UpdatePass.visit
  dsimp only
  split_ifs
  · refine Traced.Every.bind ?_ (Traced.Every.pure _)
    exact Traced.Every.bind (atStage_announceUpdate _ _ (by decide)) (Traced.Every.pure _)
  · exact Traced.Every.bind (atStage_evaluate host _ name) (Traced.Every.pure _)
  · exact Traced.Every.pure _
  · exact Traced.Every.pure _

/-- The update after an edit tells of evaluation only. -/
theorem atStage_autoUpdate (host : Host) (s : Sheet) (id : GroupId) :
    AtStage 2 (s.autoUpdate host id) := by
  unfold autoUpdate
  split_ifs
  · refine Traced.Every.bind ?_ (Traced.Every.pure _)
    unfold update
    cases s.order (.group id) with
    | error e => exact Traced.Every.pure _
    | ok names =>
      exact Traced.Every.bind (Traced.Every.foldlM fun p n => atStage_visit host _ p n)
        (Traced.Every.pure _)
  · exact Traced.Every.pure s

/-! ## News of links -/

/-- `Sheet.flush` announces news of links only, if what waits was noted from signals. -/
theorem atStage_flush (s : Sheet) {events : List LinkSignal}
    (hpending : s.pending = events.foldl noteSignal ∅) (snapshot : LinkSnapshot) :
    AtStage 1 (s.flush snapshot) := by
  unfold flush
  refine Traced.Every.bind (Traced.Every.forM fun change hchange => ?_) (Traced.Every.pure _)
  dsimp only
  split_ifs with hempty
  · exact Traced.Every.pure _
  · refine atStage_announceUpdate _ _ ?_
    rw [eq_getD_of_mem_linkChanges hchange, hpending, getD_noteSignals] at hempty ⊢
    obtain ⟨p, q, hflags⟩ := exists_netChange_eq snapshot s.graph events change.1
    change ¬ (snapshot.netChange s.graph change.1 (reported events change.1)).isEmpty = true at hempty
    show EquationFlags.stage (snapshot.netChange s.graph change.1 (reported events change.1)) = 1
    rw [hflags, tellLinks_linkFlags] at hempty
    rw [hflags, EquationFlags.stage, if_pos (by simpa using hempty)]

/-! ## Edges leave nodes -/

/-- Every edge leaves a node: dangling edges dangle at their target only. -/
def Sourced (s : Sheet) : Prop := ∀ e ∈ s.graph.edges.toList, e.source ∈ s.graph.names

/-- A calm change keeps a sheet `Sourced`. -/
theorem Sourced.of_calm (h : s.Sourced) (hcalm : Calm s' s) : s'.Sourced := by
  intro e he
  rw [hcalm.graph.edges] at he
  rw [hcalm.graph.names]
  exact h e he

/-- A name that goes takes its edges along, and edges come with the nodes they leave. -/
theorem Sourced.editStep (h : s.Sourced) (hstep : EditStep host s s') : s'.Sourced := by
  cases hstep with
  | same sheet =>
    intro e he
    rw [sheet.names]
    exact h e ((sheet.mem_edges e).1 he)
  | edited edited nodup fresh reported =>
    intro e he
    rw [edited.marked.shape.edges, edited.rewired.mem_edges] at he
    rw [edited.marked.shape.names, edited.rewired.mem_names]
    rcases he with ⟨hold, hdetached, -⟩ | ⟨item, hitem, hedge⟩
    · exact Or.inl ⟨h e hold, hdetached⟩
    · rw [(mem_itemEdges.1 hedge).1]
      exact Or.inr (List.mem_map_of_mem hitem)

theorem Vacant.sourced (h : s.Vacant) : s.Sourced := by
  intro e he
  rw [h.edges] at he
  cases he

/-- Every operation keeps edges leaving nodes. -/
theorem Sourced.perform (h : s.Sourced) (hs : s.Wired) (host : Host) (op : SheetOperation) :
    (s.perform host op).value.1.Sourced := by
  have hboth : (s.perform host op).value.1.Wired ∧ (s.perform host op).value.1.Sourced :=
    perform_induction (P := fun s => s.Wired ∧ s.Sourced)
      (fun s hvacant => ⟨hvacant.wired, hvacant.sourced⟩)
      (fun s statement h => ⟨h.1.after_enterGroup host statement,
        h.2.editStep (h.1.enterGroup host statement)⟩)
      (fun s id statement h => ⟨h.1.after_changeGroup host id statement,
        h.2.editStep (h.1.changeGroup host id statement)⟩)
      (fun s id h => ⟨h.1.after_removeGroup host id, h.2.editStep (h.1.removeGroup host id)⟩)
      (fun s s' hcalm hbooks h => ⟨hbooks.wired hcalm h.1, h.2.of_calm hcalm⟩) ⟨hs, h⟩ op
  exact hboth.2

/-- Every run keeps a sheet `Sourced`. -/
theorem Sourced.performEach (h : s.Sourced) (hs : s.Wired) (steps : List (Host × SheetOperation)) :
    (s.performEach steps).value.Sourced :=
  (performEach_induction (P := fun s => s.Wired ∧ s.Sourced)
    (fun step _ _ h => ⟨h.1.perform step.1 step.2, h.2.perform h.1 step.1 step.2⟩) ⟨hs, h⟩).2

/-! ## Edits -/

/-- The events come in stages up to some last one, and what the equations that are there in the end hear
of their links is how these changed, if they did. -/
structure Told (last : Nat) (s : Sheet) (t : Traced Event Sheet) : Prop where
  stages : t.events.Pairwise fun e e' => e.stage ≤ e'.stage
  stage_le : ∀ e ∈ t.events, e.stage ≤ last
  news : ∀ n e, t.value.equation? n = some e → linkNews n t.events =
    if (s.graph.linkChange t.value.graph n).isEmpty then [] else [s.graph.linkChange t.value.graph n]

namespace Told

/-- Where nothing happens there is nothing to tell. -/
theorem pure (last : Nat) (s : Sheet) : Told last s (Pure.pure s) where
  stages := List.Pairwise.nil
  stage_le := fun _ h => nomatch h
  news := by
    intro n e _
    exact (if_pos (linkChange_of_iff (fun _ => Iff.rfl) fun _ => Iff.rfl)).symm

/-- Parsing comes first. -/
theorem after_parse {last : Nat} {t : Traced Event Sheet} (h : Told last s t) (mode : ParseMode)
    (code : String) : Told last s (Traced.announce (.parse mode code) >>= fun _ => t) where
  stages := List.pairwise_cons.2 ⟨fun _ _ => Nat.zero_le _, h.stages⟩
  stage_le := List.forall_mem_cons.2 ⟨Nat.zero_le _, h.stage_le⟩
  news := h.news

/-- Evaluation comes last. -/
theorem evaluate {t : Traced Event Sheet} {next : Sheet → Traced Event Sheet} (h : Told 1 s t)
    (hstage : AtStage 2 (next t.value)) (hcalm : Calm (next t.value).value t.value)
    (hbooks : SameBooks (next t.value).value t.value) : Told 2 s (t >>= next) where
  stages := by
    refine List.pairwise_append.2 ⟨h.stages, ?_, fun e he e' he' => ?_⟩
    · refine List.pairwise_of_forall_mem_list fun e he e' he' => ?_
      rw [hstage e he, hstage e' he']
    · rw [hstage e' he']
      exact (h.stage_le e he).trans (Nat.le_succ 1)
  stage_le := by
    intro e he
    rcases List.mem_append.1 he with he | he
    · exact (h.stage_le e he).trans (Nat.le_succ 1)
    · exact (hstage e he).le
  news := by
    intro n e he
    have hquiet : linkNews n (next t.value).events = [] := linkNews_of_stage fun event hevent => by
      rw [hstage event hevent]
      decide
    -- The equation was there before the evaluation.
    have hbefore : (t.value.equation? n).map Equation.blank = some e.blank := by
      rw [← hbooks.equation? n]
      exact congrArg (Option.map Equation.blank) he
    obtain ⟨e', he', -⟩ := Option.map_eq_some_iff.1 hbefore
    rw [Traced.events_bind, linkNews_append, hquiet, List.append_nil, h.news n e' he']
    exact (congrArg (fun f => if Flags.isEmpty f then [] else [f]) (linkChange_congr hcalm.graph)).symm

/-- What ends at the first stage at the latest ends at the second one at the latest. -/
theorem mono {t : Traced Event Sheet} (h : Told 1 s t) : Told 2 s t :=
  ⟨h.stages, fun e he => (h.stage_le e he).trans (Nat.le_succ 1), h.news⟩

end Told

/-- Rewiring a sheet notes the signals of the graph. -/
theorem AtRest.rewire_eq_ok (hs : s.AtRest)
    (h : s.rewire detached attached = ({ s with graph, pending }, .ok ())) :
    (∃ new, (s.graph.rewire detached attached).value = (graph, .ok new)) ∧
      pending = (s.graph.rewire detached attached).events.foldl noteSignal ∅ := by
  rw [rewire] at h
  rcases hvalue : (s.graph.rewire detached attached).value with ⟨graph', err | new⟩
  · simp only [hvalue] at h
    cases congrArg Prod.snd h
  · simp only [hvalue, hs.pending] at h
    have hsheet := congrArg Prod.fst h
    have hgraph : graph' = graph := congrArg Sheet.graph hsheet
    have hpending := congrArg Sheet.pending hsheet
    exact ⟨⟨new, by rw [hgraph]⟩, hpending.symm⟩

/-- A structural change after which the link changes of the rewiring are announced. -/
theorem Wired.told_edit (hs : s.Wired) (hsourced : s.Sourced) {t : Traced Event Sheet}
    (hrewire : s.rewire detached attached = ({ s with graph, pending }, .ok ()))
    (hsound : graph.Sound) (hnodup : (attached.map (·.name)).Nodup)
    (hfresh : ∀ n ∈ attached.map (·.name), n ∈ detached ∨ n ∉ s.graph.names)
    (hedited : Edited s graph detached attached seeds t.value) (hpending : t.value.pending = pending)
    (hstage : AtStage 0 t) (hrest : ({ t.value with pending := ∅ } : Sheet).AtRest) :
    Told 1 s (t >>= (·.flush (.capture s.graph detached attached))) := by
  obtain ⟨⟨new, hok⟩, hnoted⟩ := hs.atRest.rewire_eq_ok hrewire
  have hreported := hs.atRest.sound.reported_rewire hs.atRest.inBatch hnodup hfresh hsourced hok
  have hpending' := hpending.trans hnoted
  have hflush := atStage_flush t.value hpending' (.capture s.graph detached attached)
  refine ⟨List.pairwise_append.2 ⟨?_, ?_, fun e he e' he' => ?_⟩, fun e he => ?_, fun n e he => ?_⟩
  · refine List.pairwise_of_forall_mem_list fun e he e' he' => ?_
    rw [hstage e he, hstage e' he']
  · refine List.pairwise_of_forall_mem_list fun e he e' he' => ?_
    rw [hflush e he, hflush e' he']
  · rw [hstage e he]
    exact Nat.zero_le _
  · rcases List.mem_append.1 he with he | he
    · exact (hstage e he).trans_le (Nat.zero_le _)
    · exact (hflush e he).le
  · have hwired : ({ t.value with pending := ∅ } : Sheet).Wired :=
      (hedited.withPending ∅).wired hs hrest
    have hn : n ∈ t.value.graph.names := (hwired.mem_names n).2 ⟨e, he⟩
    have hshape := hedited.marked.shape
    have hfar : n ∉ s.graph.touchedBy detached attached →
        (s.graph.linkChange t.value.graph n).isEmpty = true := fun hfar => by
      rw [linkChange_congr hshape]
      exact hedited.rewired.linkChange_of_far hs.atRest.sound.wellFormed hsound.wellFormed hfar
    have hquiet : linkNews n t.events = [] := linkNews_of_stage fun event hevent => by
      rw [hstage event hevent]
      exact Nat.zero_ne_one
    rw [Traced.events_bind, linkNews_append, hquiet, List.nil_append]
    exact hedited.booked.linkNews_flush (hreported.of_sameShape hshape) hpending' he hn hfar

/-- A group that is added. -/
theorem Wired.told_enterGroup (hs : s.Wired) (hsourced : s.Sourced) (host : Host) (statement : String)
    (hok : ∀ e, (s.enterGroup host statement).value.2 ≠ .error e) :
    Told 1 s (Prod.fst <$> s.enterGroup host statement) := by
  rcases hs.atRest.enterGroup_outline host statement with
    hrefused | ⟨items, graph, pending, -, hnodup, htaken, hsound, -, hrewired, hrewire, heq⟩
  · obtain ⟨e, he⟩ := hrefused.failed
    exact absurd he (hok e)
  · have hedited := edited_createGroup hs.booked hsound.wellFormed pending statement hnodup htaken
      hrewired
    have hrest := hs.atRest.enterGroup host statement
    have hsteps : Prod.fst <$> s.enterGroup host statement =
        Traced.announce (.parse .statement statement) >>= fun _ =>
          (Prod.fst <$> ({ s with graph, pending } : Sheet).createGroup statement items) >>=
            (·.flush (.capture s.graph [] items)) := by
      rw [heq]
      simp only [map_bind, map_pure, bind_pure, bind_map_left]
    have hedit : Told 1 s
        ((Prod.fst <$> ({ s with graph, pending } : Sheet).createGroup statement items) >>=
          (·.flush (.capture s.graph [] items))) := by
      refine hs.told_edit hsourced hrewire hsound hnodup (fun n hn => Or.inr ?_) hedited
        (calm_createGroup _ statement items).pending
        (Traced.Every.map _ (atStage_createGroup _ statement items)) ?_
      · obtain ⟨item, hitem, rfl⟩ := List.mem_map.1 hn
        exact hs.not_mem_names (htaken item hitem)
      · rw [heq] at hrest
        exact hrest
    rw [hsteps]
    exact hedit.after_parse .statement statement

/-- A group that is given another statement. -/
theorem Wired.told_changeGroup (hs : s.Wired) (hsourced : s.Sourced) (host : Host) (id : GroupId)
    (statement : String) (hok : ∀ e, (s.changeGroup host id statement).value.2 ≠ .error e) :
    Told 1 s (Prod.fst <$> s.changeGroup host id statement) := by
  rcases hs.atRest.changeGroup_outline host id statement with hrefused | hsame |
    ⟨group, items, graph, pending, hgroup, -, hnodup, htaken, hsound, -, hrewired, hrewire, heq⟩
  · obtain ⟨e, he⟩ := hrefused.failed
    exact absurd he (hok e)
  · rw [hsame]
    exact Told.pure 1 s
  · have hattached := nodup_attached group hnodup
    have hedited := edited_applyDiff hs.booked hsound.wellFormed pending statement hgroup hnodup htaken
      (hrewired hattached)
    have hrest := hs.atRest.changeGroup host id statement
    have hsteps : Prod.fst <$> s.changeGroup host id statement =
        Traced.announce (.parse .statement statement) >>= fun _ =>
          ({ s with graph, pending } : Sheet).applyDiff id statement items (diff group items) >>=
            (·.flush (.capture s.graph (diff group items).detached (diff group items).attached)) := by
      rw [heq]
      simp only [map_bind, map_pure, bind_pure]
    rw [hsteps]
    refine Told.after_parse ?_ .statement statement
    refine hs.told_edit hsourced hrewire hsound hattached (hs.fresh_attached htaken) hedited
      (calm_applyDiff _ id statement items _).pending (atStage_applyDiff _ id statement items _) ?_
    rw [heq] at hrest
    exact hrest

/-- A group that is removed. -/
theorem Wired.told_removeGroup (hs : s.Wired) (hsourced : s.Sourced) (id : GroupId)
    (hok : ∀ e, (s.removeGroup id).value.2 ≠ .error e) : Told 1 s (Prod.fst <$> s.removeGroup id) := by
  rcases hs.atRest.removeGroup_outline id with
    hrefused | ⟨group, graph, pending, hgroup, hsound, -, hrewired, hrewire, heq⟩
  · obtain ⟨e, he⟩ := hrefused.failed
    exact absurd he (hok e)
  · set struck := group.names.foldlM destroy ({ s with graph, pending } : Sheet) with hstruck
    have hedited := edited_dropGroup hs.booked hsound.wellFormed pending struck.value.pending hgroup
      hrewired
    have hrest := hs.atRest.removeGroup id
    have hsteps : Prod.fst <$> s.removeGroup id =
        ((Announcement.groupRemoving group).send >>= fun _ => struck >>= fun s' =>
          pure { s' with groups := s'.groups.erase id }) >>=
            (·.flush (.capture s.graph group.names [])) := by
      rw [heq]
      simp only [map_bind, map_pure, bind_pure, bind_assoc, pure_bind]
    have hcalm : Calm struck.value { s with graph, pending } :=
      Calm.foldlM (fun s n => calm_destroy s n) group.names _
    rw [hsteps]
    refine hs.told_edit hsourced hrewire hsound List.nodup_nil (fun n hn => absurd hn List.not_mem_nil)
      hedited hcalm.pending ?_ ?_
    · refine Traced.Every.bind (atStage_announce rfl) ?_
      exact Traced.Every.bind (atStage_destroys _ group.names) (Traced.Every.pure _)
    · rw [heq] at hrest
      exact hrest

/-- A group that is added and then updated. -/
theorem Wired.told_addGroup (hs : s.Wired) (hsourced : s.Sourced) (host : Host) (statement : String)
    (hok : ∀ e, (s.addGroup host statement).value.2 ≠ .error e) :
    Told 2 s (Prod.fst <$> s.addGroup host statement) := by
  unfold addGroup at hok ⊢
  rw [Traced.value_bind] at hok
  rcases hvalue : (s.enterGroup host statement).value with ⟨s', e | id⟩
  · rw [hvalue] at hok
    exact absurd rfl (hok e)
  · have hentered := hs.told_enterGroup hsourced host statement fun e he => by
      rw [hvalue] at he
      cases he
    have hsteps : Prod.fst <$> s.addGroup host statement =
        (Prod.fst <$> s.enterGroup host statement) >>= (·.autoUpdate host id) := by
      rw [addGroup, map_bind, bind_map_left]
      refine Traced.bind_congr_value ?_
      rw [hvalue]
      simp only [map_bind, map_pure, bind_pure]
    exact hsteps ▸ hentered.evaluate (atStage_autoUpdate host _ id) (calm_autoUpdate host _ id)
      (sameBooks_autoUpdate host _ id)

/-- A group that is given another statement and then updated. -/
theorem Wired.told_editGroup (hs : s.Wired) (hsourced : s.Sourced) (host : Host) (id : GroupId)
    (statement : String) (hok : ∀ e, (s.editGroup host id statement).value.2 ≠ .error e) :
    Told 2 s (Prod.fst <$> s.editGroup host id statement) := by
  unfold editGroup at hok ⊢
  rw [Traced.value_bind] at hok
  rcases hvalue : (s.changeGroup host id statement).value with ⟨s', e | changed⟩
  · rw [hvalue] at hok
    exact absurd rfl (hok e)
  · have hchanged := hs.told_changeGroup hsourced host id statement fun e he => by
      rw [hvalue] at he
      cases he
    cases changed with
    | false =>
      have hsteps : Prod.fst <$> s.editGroup host id statement =
          Prod.fst <$> s.changeGroup host id statement := by
        rw [editGroup, map_bind, map_eq_pure_bind]
        refine Traced.bind_congr_value ?_
        rw [hvalue]
        rfl
      exact hsteps ▸ hchanged.mono
    | true =>
      have hsteps : Prod.fst <$> s.editGroup host id statement =
          (Prod.fst <$> s.changeGroup host id statement) >>= (·.autoUpdate host id) := by
        rw [editGroup, map_bind, bind_map_left]
        refine Traced.bind_congr_value ?_
        rw [hvalue]
        simp only [map_bind, map_pure, bind_pure, if_true]
      exact hsteps ▸ hchanged.evaluate (atStage_autoUpdate host _ id) (calm_autoUpdate host _ id)
        (sameBooks_autoUpdate host _ id)

/-- A structural operation that succeeds. -/
theorem Wired.told_perform (hs : s.Wired) (hsourced : s.Sourced) (host : Host) {op : SheetOperation}
    (hop : op.isEdit = true) (hok : ∀ e, (s.perform host op).value.2 ≠ .failed e) :
    Told 2 s (Prod.fst <$> s.perform host op) := by
  -- An error would be the reply.
  have herror : ∀ {α : Type} (r : Except SheetError α) (reply : α → SheetReply),
      (∀ e, SheetReply.ofExcept reply r ≠ .failed e) → ∀ e, r ≠ .error e := by
    rintro α r reply hne e rfl
    exact hne e rfl
  cases op with
  | addGroup statement =>
    have htold := hs.told_addGroup hsourced host statement (herror _ _ hok)
    exact (Traced.map_fst_bind_pure _ _).symm ▸ htold
  | editGroup id statement =>
    have htold := hs.told_editGroup hsourced host id statement (herror _ _ hok)
    exact (Traced.map_fst_bind_pure _ _).symm ▸ htold
  | removeGroup id =>
    have htold := hs.told_removeGroup hsourced id (herror _ _ hok)
    exact (Traced.map_fst_bind_pure _ _).symm ▸ htold.mono
  | _ => cases hop

/-- After any run, a group that is added, edited or removed shows in stages: the structure changes, then
the equations hear of their links, then the group is evaluated if the sheet updates on its own. Every
equation that is there in the end hears once how its link sets differ from those before the operation,
those of a new name having been empty, and not at all if they are the same sets. -/
theorem linkNews_of_edit (host : Host) (options : Options) (store : Store)
    (steps : List (Host × SheetOperation)) (host' : Host) (op : SheetOperation)
    (hop : op.isEdit = true) :
    let s := (create host options store >>= (·.performEach steps)).value
    let t := s.perform host' op
    (∀ e, t.value.2 ≠ .failed e) →
      (t.events.Pairwise fun e e' => e.stage ≤ e'.stage) ∧
      ∀ n e, t.value.1.equation? n = some e → linkNews n t.events =
        if (s.graph.linkChange t.value.1.graph n).isEmpty then []
        else [s.graph.linkChange t.value.1.graph n] := by
  intro s t hok
  have hvacant := vacant_create host options store
  have hs : s.Wired := hvacant.wired.performEach steps
  have htold := hs.told_perform (hvacant.sourced.performEach hvacant.wired steps) host' hop hok
  refine ⟨?_, fun n e he => ?_⟩
  · have hstages := htold.stages
    rwa [Traced.events_map] at hstages
  · have hnews := htold.news n e he
    rwa [Traced.events_map] at hnews

/-- An edit that changes the first and the last equation of a chain and adds one goes through. -/
theorem reply_edit_recreated :
    ((create Sum.host { autoUpdate := true } {} >>=
      (·.performEach [(Sum.host, .addGroup "a=1;b=a;c=b")])).value.perform Sum.host
        (.editGroup (.serial 0) "a=2;b=a;c=a+b;d=c")).value.2 = .done := by
  cbv

/-- The node of `a` is dropped and comes back, and `b`, which reads it, hears nothing. -/
theorem linkNews_of_edit_recreated :
    let s := (create Sum.host { autoUpdate := true } {} >>=
      (·.performEach [(Sum.host, .addGroup "a=1;b=a;c=b")])).value
    let t := s.perform Sum.host (.editGroup (.serial 0) "a=2;b=a;c=a+b;d=c")
    (∀ e, t.value.2 ≠ .failed e) ∧
      ((t.events.Pairwise fun e e' => e.stage ≤ e'.stage) ∧
        ∀ n e, t.value.1.equation? n = some e → linkNews n t.events =
          if (s.graph.linkChange t.value.1.graph n).isEmpty then []
          else [s.graph.linkChange t.value.1.graph n]) ∧
      ["a", "b", "c", "d"].map (linkNews · t.events) =
        [[.of .dependents], [], [.of .dependencies ∪ .of .dependents], [.of .dependencies]] := by
  have hok := fun e => ne_of_eq_of_ne reply_edit_recreated
    fun h : .done = SheetReply.failed e => nomatch h
  exact ⟨hok, linkNews_of_edit Sum.host _ _ _ Sum.host _ rfl hok, by cbv⟩

end Sheet

end Recalc
