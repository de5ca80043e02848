import Recalc.Proofs.Sheet.Pass
import Recalc.Proofs.Sheet.Upkeep

/-!
# Timely runs

An update of a part of a sheet is timely if no equation that it covers reads a dirty one which it does
not cover. In a timely run every update is, those that start after an edit included. What structural
edits and timely updates keep, every timely operation keeps, whatever the host does, and so does a
timely run.
-/

namespace Recalc.Sheet

open Recalc.Graph

variable {host : Host} {s : Sheet}

/-! ## Timely operations -/

/-- The updates that the operation starts have clean inputs, those after an edit included. -/
def Timely (host : Host) (s : Sheet) : SheetOperation → Prop
  | .addGroup statement => ∀ s' id, (s.enterGroup host statement).value = (s', .ok id) →
      s'.options.autoUpdate = true → s'.InputsClean (s'.Covers (.group id))
  | .editGroup id statement => ∀ s', (s.changeGroup host id statement).value = (s', .ok true) →
      s'.options.autoUpdate = true → s'.InputsClean (s'.Covers (.group id))
  | .update scope | .updateUnless _ scope => s.InputsClean (s.Covers scope)
  | .updateOnly name => s.InputsClean (· = name)
  | .removeGroup _ | .eval _ | .reset | .setStatus .. => True

/-- Each operation of a run is timely when its turn comes. -/
def TimelyRun (host : Host) : Sheet → List SheetOperation → Prop
  | _, [] => True
  | s, op :: operations =>
    s.Timely host op ∧ TimelyRun host (s.perform host op).value.1 operations

/-- Adding a group is timely if the update of the group that it starts has clean inputs. -/
theorem timely_addGroup {statement : String} (id : GroupId)
    (hid : (s.enterGroup host statement).value.2.toOption = some id)
    (hclean : let s' := (s.enterGroup host statement).value.1
      s'.options.autoUpdate = true → s'.InputsClean (s'.Covers (.group id))) :
    s.Timely host (.addGroup statement) := by
  intro s' id' hvalue hauto
  rw [hvalue] at hid hclean
  obtain rfl : id' = id := Option.some.inj hid
  exact hclean hauto

/-- Editing a group is timely if the update of the group that it starts has clean inputs. -/
theorem timely_editGroup {statement : String} {id : GroupId}
    (hclean : let s' := (s.changeGroup host id statement).value.1
      s'.options.autoUpdate = true → s'.InputsClean (s'.Covers (.group id))) :
    s.Timely host (.editGroup id statement) := by
  intro s' hvalue hauto
  rw [hvalue] at hclean
  exact hclean hauto

/-! ## What timely runs keep -/

section Operations

variable {P : Sheet → Prop} (hvacant : ∀ s, Vacant s → P s)
  (henter : ∀ s statement, P s → P (s.enterGroup host statement).value.1)
  (hchange : ∀ s id statement, P s → P (s.changeGroup host id statement).value.1)
  (hremove : ∀ s id, P s → P (s.removeGroup id).value.1)
  (hupdate : ∀ s scope cancelled, s.InputsClean (s.Covers scope) → P s →
    P (s.update host scope cancelled).value.1)
  (honly : ∀ s name, s.InputsClean (· = name) → P s → P (s.updateOnly host name).value.1)
  (hstatus : ∀ s name status message, P s → P (s.setStatus name status message).value.1)

include hvacant henter hchange hremove hupdate honly hstatus

/-- What holds without equations and is kept by structural edits, by timely updates and by the setting
of a status, every timely operation keeps. -/
theorem Timely.induction {op : SheetOperation} (htimely : s.Timely host op) (h : P s) :
    P (s.perform host op).value.1 := by
  have hauto : ∀ s id, (s.options.autoUpdate = true → s.InputsClean (s.Covers (.group id))) → P s →
      P (s.autoUpdate host id).value := by
    intro s id hclean h
    unfold autoUpdate
    split_ifs with hoption
    · exact hupdate s (.group id) uncancelled (hclean hoption) h
    · exact h
  cases op with
  | addGroup statement =>
    exact addGroup_induction (henter s statement h) fun s' id hvalue =>
      hauto s' id (htimely s' id hvalue)
  | editGroup id statement =>
    exact editGroup_induction (hchange s id statement h) fun s' hvalue =>
      hauto s' id (htimely s' hvalue)
  | removeGroup id => exact hremove s id h
  | update scope => exact hupdate s scope uncancelled htimely h
  | updateUnless cancelled scope => exact hupdate s scope cancelled htimely h
  | updateOnly name => exact honly s name htimely h
  | eval expression => exact h
  | reset => exact hvacant _ (vacant_reset host s)
  | setStatus name status message => exact hstatus s name status message h

end Operations

/-- What every timely operation keeps, every timely run keeps. -/
theorem TimelyRun.induction {P : Sheet → Prop} {operations : List SheetOperation}
    (hstep : ∀ s op, s.Timely host op → P s → P (s.perform host op).value.1)
    (htimely : TimelyRun host s operations) (h : P s) : P (s.performAll host operations).value := by
  induction operations generalizing s with
  | nil => exact h
  | cons op operations ih =>
    rw [value_performAll_cons]
    exact ih htimely.2 (hstep s op htimely.1 h)

end Recalc.Sheet
