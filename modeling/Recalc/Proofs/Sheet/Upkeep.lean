import Recalc.Proofs.Sheet.Restructure

/-!
# What every run keeps

Over any host, updates and the setting of a status change values, marks, and how evaluations ended. They
change neither which groups there are nor what their equations say (`SameBooks`). So whatever does not
depend on values, marks and outcomes is kept by every operation if structural edits and resets keep it
(`perform_induction`). That the nodes of the graph are the names of the equations is of this sort.
-/

namespace Recalc

/-- The equation without how its last evaluation ended. -/
def Equation.blank (e : Equation) : Equation := { e with status := .pending, message := "" }

/-- The group without how the evaluations of its equations ended. -/
def Group.blank (g : Group) : Group :=
  { g with equations := g.equations.mapValues fun _ e => e.blank }

namespace Sheet

open Recalc.Graph

variable {s s' s'' : Sheet} {host : Host}

/-- The groups without how evaluations ended. -/
def blankGroups (s : Sheet) : OrderedMap GroupId Group := s.groups.mapValues fun _ g => g.blank

/-- The sheets have the same groups of the same equations, up to how evaluations ended. -/
structure SameBooks (s' s : Sheet) : Prop where
  owners : s'.owners = s.owners
  blankGroups : s'.blankGroups = s.blankGroups
  created : s'.created = s.created

namespace SameBooks

theorem refl (s : Sheet) : SameBooks s s := ⟨rfl, rfl, rfl⟩

theorem trans (h₂ : SameBooks s'' s') (h₁ : SameBooks s' s) : SameBooks s'' s :=
  ⟨h₂.owners.trans h₁.owners, h₂.blankGroups.trans h₁.blankGroups, h₂.created.trans h₁.created⟩

/-- Sheets with the same books have the same groups, up to how evaluations ended. -/
theorem group? (h : SameBooks s' s) (id : GroupId) :
    (s'.group? id).map Group.blank = (s.group? id).map Group.blank := by
  have hget : s'.blankGroups.get? id = s.blankGroups.get? id := by rw [h.blankGroups]
  rwa [Sheet.blankGroups, Sheet.blankGroups, OrderedMap.get?_mapValues, OrderedMap.get?_mapValues]
    at hget

/-- Sheets with the same books have the same entries in each group, up to how evaluations ended. -/
theorem entryIn? (h : SameBooks s' s) (id : GroupId) (n : String) :
    (s'.entryIn? id n).map Equation.blank = (s.entryIn? id n).map Equation.blank := by
  have hlook : ∀ t : Sheet, (t.entryIn? id n).map Equation.blank =
      ((t.group? id).map Group.blank).bind fun g : Group => g.equations.get? n := by
    intro t
    unfold Sheet.entryIn? Sheet.group?
    cases t.groups.get? id with
    | none => rfl
    | some g => exact (OrderedMap.get?_mapValues g.equations (fun _ e => e.blank) n).symm
  rw [hlook, hlook, h.group?]

/-- Sheets with the same books list the same groups in the same order. -/
theorem keys (h : SameBooks s' s) : s'.groups.keys = s.groups.keys := by
  have hkeys : s'.blankGroups.keys = s.blankGroups.keys := by rw [h.blankGroups]
  rwa [Sheet.blankGroups, Sheet.blankGroups, OrderedMap.keys_mapValues, OrderedMap.keys_mapValues]
    at hkeys

/-- Being `Booked` does not depend on how evaluations ended. -/
theorem booked (h : SameBooks s' s) (hs : s.Booked) : s'.Booked := by
  refine hs.congr (fun n => by rw [h.owners]) (fun id n => ?_) h.keys h.created
  have hname := congrArg (Option.map Equation.name) (h.entryIn? id n)
  rwa [Option.map_map, Option.map_map] at hname

/-- Sheets with the same books find the same equations, up to how evaluations ended. -/
theorem equation? (h : SameBooks s' s) (n : String) :
    (s'.equation? n).map Equation.blank = (s.equation? n).map Equation.blank := by
  rw [equation?_eq, equation?_eq, h.owners]
  cases s.owners.get? n with
  | none => rfl
  | some id => exact h.entryIn? id n

/-- Sheets with the same books have the same texts. -/
theorem text? (h : SameBooks s' s) (n : String) : s'.text? n = s.text? n := by
  have htext := congrArg (Option.map Equation.text) (h.equation? n)
  rwa [Option.map_map, Option.map_map] at htext

/-- A sheet at rest that is changed calmly and keeps its books stays wired. -/
theorem wired (h : SameBooks s' s) (hcalm : Calm s' s) (hs : s.Wired) : s'.Wired :=
  hs.of_sameLinks (SameLinks.of_calm hs.atRest hcalm (h.booked hs.booked) h.text?)

end SameBooks

/-! ## Small changes -/

/-- A change of how the evaluation of an equation ended keeps the books. -/
theorem sameBooks_modifyEquation (s : Sheet) (name : String) {f : Equation → Equation}
    (hf : ∀ e, (f e).blank = e.blank) : SameBooks (s.modifyEquation name f) s := by
  have hsame := sameOutside_modifyEquation s name f
  refine ⟨hsame.owners, ?_, hsame.created⟩
  unfold modifyEquation
  cases s.owners.get? name with
  | none => rfl
  | some id =>
    -- Blanking forgets the change, so it may as well not have happened.
    have hequations : ∀ m : OrderedMap String Equation,
        ((m.modify name f).mapValues fun _ e => e.blank) = m.mapValues fun _ e => e.blank := by
      intro m
      rw [OrderedMap.modify, OrderedMap.mapValues_mapValues]
      exact OrderedMap.mapValues_congr fun k e _ => by split_ifs <;> simp [hf]
    show (s.groups.modify id fun g => { g with equations := g.equations.modify name f }).mapValues
      (fun _ g => g.blank) = s.groups.mapValues fun _ g => g.blank
    rw [OrderedMap.modify, OrderedMap.mapValues_mapValues]
    refine OrderedMap.mapValues_congr fun k g _ => ?_
    split_ifs
    · simp [Group.blank, hequations]
    · rfl

theorem sameBooks_setResult (s : Sheet) (name : String) (status : Status) (message : String) :
    SameBooks (s.setResult name status message) s := sameBooks_modifyEquation s name fun _ => rfl

theorem sameBooks_conclude (s : Sheet) (name : String) (outcome : Outcome) (after : Store) :
    SameBooks (s.conclude name outcome after) s := by
  unfold conclude
  split_ifs
  · exact (sameBooks_setResult _ name _ _).trans ⟨rfl, rfl, rfl⟩
  · exact (sameBooks_setResult _ name _ _).trans ⟨rfl, rfl, rfl⟩

/-! ## Updates -/

theorem sameBooks_evaluate (host : Host) (s : Sheet) (name : String) :
    SameBooks (s.evaluate host name).value s := by
  rw [value_evaluate]
  cases s.equation? name with
  | none => exact SameBooks.refl s
  | some e => exact sameBooks_conclude s name _ _

theorem sameBooks_refresh (host : Host) (s : Sheet) (name : String) :
    SameBooks (s.refresh host name) s := by
  have hclean : SameBooks (s.markClean name) s := ⟨rfl, rfl, rfl⟩
  unfold refresh
  split_ifs
  · exact (sameBooks_evaluate host _ name).trans hclean
  · exact hclean

/-- A visit of an update pass keeps the books. -/
theorem sameBooks_visit (host : Host) (cancelled : Nat → Bool) (p : UpdatePass) (name : String) :
    SameBooks (p.visit host cancelled name).value.sheet p.sheet := by
  rw [value_visit]
  split_ifs
  · exact sameBooks_setResult p.sheet name _ _
  · exact sameBooks_refresh host p.sheet name
  · exact SameBooks.refl p.sheet

/-- The visits of an update pass keep the books. -/
theorem sameBooks_visits (host : Host) (cancelled : Nat → Bool) (names : List String)
    (p : UpdatePass) :
    SameBooks (names.foldlM (UpdatePass.visit host cancelled) p).value.sheet p.sheet := by
  induction names generalizing p with
  | nil => exact SameBooks.refl p.sheet
  | cons name names ih => exact (ih _).trans (sameBooks_visit host cancelled p name)

/-- `Sheet.update` keeps the books, interrupted or not. -/
theorem sameBooks_update (host : Host) (s : Sheet) (scope : UpdateScope) (cancelled : Nat → Bool) :
    SameBooks (s.update host scope cancelled).value.1 s := by
  unfold update
  cases s.order scope with
  | error e => exact SameBooks.refl s
  | ok names => exact sameBooks_visits host cancelled names { sheet := s }

/-- The update after an edit keeps the books. -/
theorem sameBooks_autoUpdate (host : Host) (s : Sheet) (id : GroupId) :
    SameBooks (s.autoUpdate host id).value s := by
  unfold autoUpdate
  split_ifs
  · exact sameBooks_update host s _ _
  · exact SameBooks.refl s

theorem sameBooks_updateOnly (host : Host) (s : Sheet) (name : String) :
    SameBooks (s.updateOnly host name).value.1 s := by
  unfold updateOnly
  split_ifs
  · have hmarks : SameBooks (((s.evaluate host name).value.invalidate name).markClean name)
        (s.evaluate host name).value := ⟨rfl, rfl, rfl⟩
    exact hmarks.trans (sameBooks_evaluate host s name)
  · exact SameBooks.refl s

theorem sameBooks_setStatus (s : Sheet) (name : String) (status : Status) (message : String) :
    SameBooks (s.setStatus name status message).value.1 s := by
  unfold setStatus
  split_ifs
  · exact sameBooks_setResult s name status message
  · exact SameBooks.refl s

/-! ## Sheets without equations -/

/-- The sheet is at rest, and there are no groups, names, nodes and edges. -/
structure Vacant (s : Sheet) : Prop where
  atRest : s.AtRest
  groups : s.groups = ∅
  owners : s.owners = ∅
  names : s.graph.names = []
  edges : s.graph.edges = ∅

namespace Vacant

/-- Running the start-up script keeps a sheet vacant: it writes the store. -/
theorem startUp (h : s.Vacant) (host : Host) : (s.startUp host).value.Vacant := by
  have hrest := h.atRest.startUp host
  unfold Sheet.startUp at hrest ⊢
  cases hscript : s.options.startupScript with
  | none => exact h
  | some script =>
    rw [hscript] at hrest
    exact ⟨hrest, h.groups, h.owners, h.names, h.edges⟩

/-- No group of a vacant sheet has an equation. -/
theorem entryIn? (h : s.Vacant) (id : GroupId) (n : String) : s.entryIn? id n = none := by
  rw [Sheet.entryIn?, h.groups]
  rfl

/-- No name of a vacant sheet has an equation. -/
theorem equation? (h : s.Vacant) (n : String) : s.equation? n = none := by
  rw [equation?_eq, h.owners]
  rfl

theorem wired (h : s.Vacant) : s.Wired := by
  refine ⟨h.atRest, ⟨fun n id => ?_, fun n id e he => ?_, fun id hid => ?_⟩, fun n => ?_⟩
  · simp [h.owners, h.entryIn?]
  · rw [h.entryIn?] at he
    cases he
  · rw [h.groups] at hid
    exact absurd hid List.not_mem_nil
  · simp [h.names, h.equation?]

end Vacant

/-- A new sheet is vacant. -/
theorem vacant_create (host : Host) (options : Options) (store : Store) :
    (create host options store).value.Vacant :=
  Vacant.startUp ⟨⟨Sound.empty, rfl, rfl⟩, rfl, rfl, rfl, rfl⟩ host

/-- A sheet that was reset is vacant, whatever it was before. -/
theorem vacant_reset (host : Host) (s : Sheet) : (s.reset host).value.Vacant :=
  Vacant.startUp ⟨⟨Sound.reset s.graph, rfl, rfl⟩, rfl, rfl, rfl, rfl⟩ host

/-! ## Operations -/

section Operations

variable {P : Sheet → Prop} (hvacant : ∀ s, Vacant s → P s)
  (henter : ∀ s statement, P s → P (s.enterGroup host statement).value.1)
  (hchange : ∀ s id statement, P s → P (s.changeGroup host id statement).value.1)
  (hremove : ∀ s id, P s → P (s.removeGroup id).value.1)
  (hupkeep : ∀ s s', Calm s' s → SameBooks s' s → P s → P s')

include hvacant henter hchange hremove hupkeep

/-- What holds without equations and is kept by structural edits and by upkeep, every operation
keeps. -/
theorem perform_induction (h : P s) (op : SheetOperation) : P (s.perform host op).value.1 := by
  have hauto : ∀ s id, P s → P (s.autoUpdate host id).value := fun s id =>
    hupkeep s _ (calm_autoUpdate host s id) (sameBooks_autoUpdate host s id)
  have hupdate : ∀ scope cancelled, P (s.update host scope cancelled).value.1 := fun scope cancelled =>
    hupkeep s _ (calm_update host s scope cancelled) (sameBooks_update host s scope cancelled) h
  cases op with
  | addGroup statement => exact addGroup_induction (henter s statement h) fun s' id _ => hauto s' id
  | editGroup id statement =>
    exact editGroup_induction (hchange s id statement h) fun s' _ => hauto s' id
  | removeGroup id => exact hremove s id h
  | update scope => exact hupdate scope uncancelled
  | updateUnless cancelled scope => exact hupdate scope cancelled
  | updateOnly name => exact hupkeep s _ (calm_updateOnly host s name) (sameBooks_updateOnly host s name) h
  | eval expression => exact h
  | reset => exact hvacant _ (vacant_reset host s)
  | setStatus name status message =>
    exact hupkeep s _ (calm_setStatus s name status message) (sameBooks_setStatus s name status message) h

end Operations

/-! ## Wiring is kept -/

namespace Wired

/-- Entering a group keeps a sheet `Wired`, refused or not. -/
theorem after_enterGroup (hs : s.Wired) (host : Host) (statement : String) :
    (s.enterGroup host statement).value.1.Wired :=
  (hs.enterGroup host statement).wired hs (hs.atRest.enterGroup host statement)

/-- Giving a group another statement keeps a sheet `Wired`, refused or not. -/
theorem after_changeGroup (hs : s.Wired) (host : Host) (id : GroupId) (statement : String) :
    (s.changeGroup host id statement).value.1.Wired :=
  (hs.changeGroup host id statement).wired hs (hs.atRest.changeGroup host id statement)

/-- Removing a group keeps a sheet `Wired`, refused or not. -/
theorem after_removeGroup (hs : s.Wired) (host : Host) (id : GroupId) :
    (s.removeGroup id).value.1.Wired :=
  (hs.removeGroup host id).wired hs (hs.atRest.removeGroup id)

/-- Every operation keeps a sheet wired. -/
theorem perform (hs : s.Wired) (host : Host) (op : SheetOperation) :
    (s.perform host op).value.1.Wired :=
  perform_induction (fun _ h => h.wired) (fun _ statement h => h.after_enterGroup host statement)
    (fun _ id statement h => h.after_changeGroup host id statement)
    (fun _ id h => h.after_removeGroup host id) (fun _ _ hcalm hbooks h => hbooks.wired hcalm h) hs op

end Wired

/-- Every run keeps a sheet wired. -/
theorem Wired.performEach (hs : s.Wired) (steps : List (Host × SheetOperation)) :
    (s.performEach steps).value.Wired :=
  performEach_induction (fun step _ _ h => h.perform step.1 step.2) hs

end Sheet

end Recalc
