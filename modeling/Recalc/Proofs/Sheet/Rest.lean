import Recalc.Proofs.Sheet.Rewire
import Recalc.Sheet.Operation

/-!
# Sheets at rest

Between two operations a sheet is at rest: its graph is sound, no batch is open, and no link change
waits to be announced. Most of what operations do is `Calm`: it changes neither the shape of the
graph nor the link changes that wait. The exceptions are rewiring, after which the waiting link changes
are announced, and a reset.
-/

namespace Recalc.Sheet

open Recalc.Graph

variable {s s' : Sheet} {host : Host}

/-! ## What calm changes leave alone -/

/-- The sheets differ at most in their groups. -/
structure SameOutside (s' s : Sheet) : Prop where
  graph : s'.graph = s.graph
  owners : s'.owners = s.owners
  store : s'.store = s.store
  options : s'.options = s.options
  pending : s'.pending = s.pending
  created : s'.created = s.created

theorem SameOutside.refl (s : Sheet) : SameOutside s s := ⟨rfl, rfl, rfl, rfl, rfl, rfl⟩

theorem SameOutside.trans {s'' : Sheet} (h₂ : SameOutside s'' s') (h₁ : SameOutside s' s) :
    SameOutside s'' s :=
  ⟨h₂.graph.trans h₁.graph, h₂.owners.trans h₁.owners, h₂.store.trans h₁.store,
    h₂.options.trans h₁.options, h₂.pending.trans h₁.pending, h₂.created.trans h₁.created⟩

theorem sameOutside_modifyGroup (s : Sheet) (id : GroupId) (f : Group → Group) :
    SameOutside (s.modifyGroup id f) s := ⟨rfl, rfl, rfl, rfl, rfl, rfl⟩

theorem sameOutside_modifyEquation (s : Sheet) (name : String) (f : Equation → Equation) :
    SameOutside (s.modifyEquation name f) s := by
  unfold modifyEquation
  cases s.owners.get? name with
  | none => exact SameOutside.refl s
  | some id => exact sameOutside_modifyGroup s id _

theorem sameOutside_setResult (s : Sheet) (name : String) (status : Status) (message : String) :
    SameOutside (s.setResult name status message) s := sameOutside_modifyEquation s name _

theorem sameOutside_restate (s : Sheet) (id : GroupId) (statement : String)
    (items added : List ParseItem) : SameOutside (s.restate id statement items added) s :=
  sameOutside_modifyGroup s id _

/-- The shape of the graph and the link changes that wait are the same. -/
structure Calm (s' s : Sheet) : Prop where
  graph : SameShape s'.graph s.graph
  pending : s'.pending = s.pending

namespace Calm

theorem refl (s : Sheet) : Calm s s := ⟨SameShape.refl s.graph, rfl⟩

theorem trans {s'' : Sheet} (h₂ : Calm s'' s') (h₁ : Calm s' s) : Calm s'' s :=
  ⟨h₂.graph.trans h₁.graph, h₂.pending.trans h₁.pending⟩

/-- A change of the groups alone is calm. -/
theorem of_sameOutside (h : SameOutside s' s) : Calm s' s :=
  ⟨h.graph ▸ SameShape.refl s.graph, h.pending⟩

/-- What single steps leave alone, a run of them leaves alone. -/
theorem foldl {α : Type} {f : Sheet → α → Sheet} (hf : ∀ s a, Calm (f s a) s) (as : List α)
    (s : Sheet) : Calm (as.foldl f s) s := by
  induction as generalizing s with
  | nil => exact refl s
  | cons a as ih => exact (ih (f s a)).trans (hf s a)

/-- A run of changes that announce events is calm if each of them is. -/
theorem foldlM {α : Type} {f : Sheet → α → Traced Event Sheet} (hf : ∀ s a, Calm (f s a).value s)
    (as : List α) (s : Sheet) : Calm (as.foldlM f s).value s := by
  rw [Traced.value_foldlM]
  exact foldl hf as s

end Calm

/-- `Sheet.invalidate` is calm: it sets flags. -/
theorem calm_invalidate (s : Sheet) (name : String) : Calm (s.invalidate name) s :=
  ⟨sameShape_invalidate s.graph name, rfl⟩

/-- `Sheet.markClean` is calm: it takes a flag back. -/
theorem calm_markClean (s : Sheet) (name : String) : Calm (s.markClean name) s :=
  ⟨sameShape_markClean s.graph name, rfl⟩

/-! ## Evaluating -/

/-- `Sheet.conclude` is calm: it writes the store, the result and at most one stamp. -/
theorem calm_conclude (s : Sheet) (name : String) (outcome : Outcome) (after : Store) :
    Calm (s.conclude name outcome after) s := by
  have htouch : ∀ changed : Bool,
      SameShape (if changed = true then (s.graph.touch name).1 else s.graph) s.graph := by
    intro changed
    cases changed with
    | false => exact SameShape.refl s.graph
    | true => exact sameShape_touch s.graph name
  unfold conclude
  split_ifs
  · exact (Calm.of_sameOutside (sameOutside_setResult _ name _ _)).trans ⟨htouch _, rfl⟩
  · exact (Calm.of_sameOutside (sameOutside_setResult _ name _ _)).trans ⟨htouch _, rfl⟩

/-- `Sheet.evaluate` concludes what the host answers for the code of the equation, if there is one. -/
theorem value_evaluate (host : Host) (s : Sheet) (name : String) :
    (s.evaluate host name).value =
      match s.equation? name with
      | none => s
      | some e => s.conclude name (host.exec e.code s.store).1 (host.exec e.code s.store).2 := by
  unfold evaluate
  cases s.equation? name <;> rfl

theorem calm_evaluate (host : Host) (s : Sheet) (name : String) :
    Calm (s.evaluate host name).value s := by
  rw [value_evaluate]
  cases s.equation? name with
  | none => exact Calm.refl s
  | some e => exact calm_conclude s name _ _

/-- Clear the mark of an equation, and execute it if it has to be evaluated. -/
def refresh (host : Host) (s : Sheet) (name : String) : Sheet :=
  if s.graph.needsEvaluation name then ((s.markClean name).evaluate host name).value
  else s.markClean name

theorem calm_refresh (host : Host) (s : Sheet) (name : String) : Calm (s.refresh host name) s := by
  unfold refresh
  split_ifs
  · exact (calm_evaluate host _ name).trans (calm_markClean s name)
  · exact calm_markClean s name

/-- Asking whether the pass is cancelled changes no sheet. -/
theorem sheet_check (p : UpdatePass) (cancelled : Nat → Bool) :
    (p.check cancelled).sheet = p.sheet := by
  unfold UpdatePass.check
  split_ifs <;> rfl

/-- A visit of an update pass does something for a dirty name only: once the pass is cancelled it marks
the equation as interrupted, and otherwise it refreshes the equation. -/
theorem value_visit (host : Host) (cancelled : Nat → Bool) (p : UpdatePass) (name : String) :
    (p.visit host cancelled name).value =
      if p.sheet.isDirty name then
        if (p.check cancelled).interrupted then
          { p.check cancelled with sheet := p.sheet.setResult name .interrupted "interrupted" }
        else { p.check cancelled with sheet := p.sheet.refresh host name }
      else p := by
  unfold UpdatePass.visit refresh
  simp only [sheet_check]
  split_ifs <;> rfl

/-- A visit of an update pass is calm. -/
theorem calm_visit (host : Host) (cancelled : Nat → Bool) (p : UpdatePass) (name : String) :
    Calm (p.visit host cancelled name).value.sheet p.sheet := by
  rw [value_visit]
  split_ifs
  · exact Calm.of_sameOutside (sameOutside_setResult p.sheet name _ _)
  · exact calm_refresh host p.sheet name
  · exact Calm.refl p.sheet

/-- The visits of an update pass are calm. -/
theorem calm_visits (host : Host) (cancelled : Nat → Bool) (names : List String) (p : UpdatePass) :
    Calm (names.foldlM (UpdatePass.visit host cancelled) p).value.sheet p.sheet := by
  induction names generalizing p with
  | nil => exact Calm.refl p.sheet
  | cons name names ih => exact (ih _).trans (calm_visit host cancelled p name)

/-- `Sheet.update` is calm, interrupted or not. -/
theorem calm_update (host : Host) (s : Sheet) (scope : UpdateScope) (cancelled : Nat → Bool) :
    Calm (s.update host scope cancelled).value.1 s := by
  unfold update
  cases s.order scope with
  | error e => exact Calm.refl s
  | ok names => exact calm_visits host cancelled names { sheet := s }

/-- The update after an edit is calm. -/
theorem calm_autoUpdate (host : Host) (s : Sheet) (id : GroupId) :
    Calm (s.autoUpdate host id).value s := by
  unfold autoUpdate
  split_ifs
  · exact calm_update host s _ _
  · exact Calm.refl s

theorem calm_updateOnly (host : Host) (s : Sheet) (name : String) :
    Calm (s.updateOnly host name).value.1 s := by
  unfold updateOnly
  split_ifs
  · exact ((calm_markClean _ name).trans (calm_invalidate _ name)).trans (calm_evaluate host s name)
  · exact Calm.refl s

theorem calm_setStatus (s : Sheet) (name : String) (status : Status) (message : String) :
    Calm (s.setStatus name status message).value.1 s := by
  unfold setStatus
  split_ifs
  · exact Calm.of_sameOutside (sameOutside_setResult s name status message)
  · exact Calm.refl s

/-! ## Editing what the graph has already taken in -/

/-- Claiming a name is calm: it sets flags. -/
theorem calm_claim (s : Sheet) (id : GroupId) (name : String) : Calm (s.claim id name) s :=
  ⟨sameShape_invalidate s.graph name, rfl⟩

/-- `Sheet.createGroup` is calm: the graph was rewired before. -/
theorem calm_createGroup (s : Sheet) (statement : String) (items : List ParseItem) :
    Calm (s.createGroup statement items).value.1 s := by
  have hclaims := Calm.foldl
    (fun t (item : ParseItem) => calm_claim t (GroupId.serial s.created) item.name) items s
  exact ⟨hclaims.graph, hclaims.pending⟩

/-- `Sheet.destroy` is calm: the graph was rewired before. -/
theorem calm_destroy (s : Sheet) (name : String) : Calm (s.destroy name).value s := by
  have hmarks := Calm.foldl (fun t (e : Edge) => calm_invalidate t e.source)
    (s.graph.edges.arriving name) s
  unfold destroy
  simp only [Traced.value_bind, Traced.value_pure]
  split
  · exact ⟨hmarks.graph, hmarks.pending⟩
  · exact ⟨hmarks.graph, hmarks.pending⟩

/-- `Sheet.revise` is calm: the graph was rewired before. -/
theorem calm_revise (s : Sheet) (item : ParseItem) : Calm (s.revise item).value s := by
  have hedit := sameOutside_modifyEquation { s with store := (s.store.remove item.name).1 } item.name
    fun e => { e with content := item.content, kind := item.kind }
  have hcalm : Calm { s with store := (s.store.remove item.name).1 } s := ⟨SameShape.refl _, rfl⟩
  exact (calm_invalidate _ item.name).trans ((Calm.of_sameOutside hedit).trans hcalm)

/-- `Sheet.introduce` is calm: the graph was rewired before. -/
theorem calm_introduce (s : Sheet) (id : GroupId) (item : ParseItem) :
    Calm (s.introduce id item).value s := calm_claim s id item.name

/-- `Sheet.applyDiff` is calm: the graph was rewired before. -/
theorem calm_applyDiff (s : Sheet) (id : GroupId) (statement : String) (items : List ParseItem)
    (d : GroupDiff) : Calm (s.applyDiff id statement items d).value s := by
  have hremoved := Calm.foldlM calm_destroy d.removed s
  have hupdated := Calm.foldlM calm_revise d.updated (d.removed.foldlM destroy s).value
  have hstated := Calm.of_sameOutside (sameOutside_restate
    (d.updated.foldlM revise (d.removed.foldlM destroy s).value).value id statement items d.added)
  have hadded := Calm.foldlM (fun t item => calm_introduce t id item) d.added
    ((d.updated.foldlM revise (d.removed.foldlM destroy s).value).value.restate id statement items
      d.added)
  exact hadded.trans (hstated.trans (hupdated.trans hremoved))

/-! ## Edits that start an update -/

section AutoUpdate

variable {P : Sheet → Prop}

/-- What entering the group and then updating it keep, adding a group keeps. -/
theorem addGroup_induction {statement : String} (hentered : P (s.enterGroup host statement).value.1)
    (hauto : ∀ s' id, (s.enterGroup host statement).value = (s', .ok id) → P s' →
      P (s'.autoUpdate host id).value) : P (s.addGroup host statement).value.1 := by
  rw [addGroup, Traced.value_bind]
  rcases hvalue : (s.enterGroup host statement).value with ⟨s', e | id⟩
  · rwa [hvalue] at hentered
  · rw [hvalue] at hentered
    exact hauto s' id hvalue hentered

/-- What changing the group and then updating it keep, editing a group keeps. -/
theorem editGroup_induction {id : GroupId} {statement : String}
    (hchanged : P (s.changeGroup host id statement).value.1)
    (hauto : ∀ s', (s.changeGroup host id statement).value = (s', .ok true) → P s' →
      P (s'.autoUpdate host id).value) : P (s.editGroup host id statement).value.1 := by
  rw [editGroup, Traced.value_bind]
  rcases hvalue : (s.changeGroup host id statement).value with ⟨s', e | changed⟩
  · rwa [hvalue] at hchanged
  · rw [hvalue] at hchanged
    cases changed with
    | false => exact hchanged
    | true => exact hauto s' hvalue hchanged

end AutoUpdate

/-! ## Rest -/

/-- No batch is open, no link change waits, and the graph is sound. -/
structure AtRest (s : Sheet) : Prop where
  sound : s.graph.Sound
  inBatch : s.graph.inBatch = false
  pending : s.pending = ∅

/-- A calm change keeps a sheet at rest. -/
theorem AtRest.of_calm (hs : s.AtRest) (h : Calm s' s) : s'.AtRest :=
  ⟨hs.sound.of_sameShape h.graph, by rw [Graph.inBatch, h.graph.journal]; exact hs.inBatch,
    h.pending.trans hs.pending⟩

/-- The two ways in which rewiring a sheet ends. -/
theorem AtRest.rewire_cases (hs : s.AtRest) (detached : List String) (attached : List ParseItem) :
    (∃ graph pending, s.rewire detached attached = ({ s with graph, pending }, .ok ()) ∧
        graph.Sound ∧ graph.inBatch = false ∧
        ((attached.map (·.name)).Nodup → Rewired s.graph detached attached graph)) ∨
      ∃ graph err, s.rewire detached attached = ({ s with graph, pending := ∅ }, .error err) ∧
        graph.Sound ∧ graph.inBatch = false ∧ Alike True graph s.graph ∧
        graph.clock = s.graph.clock := by
  unfold rewire
  rcases hs.sound.rewire_cases hs.inBatch detached attached with
    ⟨graph, new, hvalue, hsound, hb, hrewired⟩ | ⟨graph, err, hvalue, hsound, hb, halike, hclock⟩
  · simp only [hvalue]
    exact Or.inl ⟨graph, _, rfl, hsound, hb, hrewired⟩
  · simp only [hvalue]
    exact Or.inr ⟨graph, err, rfl, hsound, hb, halike, hclock⟩

/-- Running the start-up script keeps a sheet at rest. -/
theorem AtRest.startUp (hs : s.AtRest) (host : Host) : (s.startUp host).value.AtRest := by
  unfold Sheet.startUp
  cases s.options.startupScript with
  | none => exact hs
  | some script => exact ⟨hs.sound, hs.inBatch, hs.pending⟩

/-- A new sheet is at rest. -/
theorem atRest_create (host : Host) (options : Options) (store : Store) :
    (create host options store).value.AtRest :=
  AtRest.startUp ⟨Sound.empty, rfl, rfl⟩ host

/-- A sheet that was reset is at rest, whatever it was before. -/
theorem atRest_reset (host : Host) (s : Sheet) : (s.reset host).value.AtRest :=
  AtRest.startUp ⟨Sound.reset s.graph, rfl, rfl⟩ host

end Recalc.Sheet
