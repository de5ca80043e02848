import Recalc.Proofs.Host.Sum
import Recalc.Proofs.Host.ZeroChain
import Recalc.Proofs.Sheet.Timely

/-!
# Incremental updates converge

Whatever was done to a sheet over a local host, an update of everything makes every equation current:
executing it again would change nothing, as if all had been evaluated from scratch. The only condition
is on updates of a part, that they are timely: an update that covers an equation which reads a dirty one
that it does not cover would clear the mark of an equation that has still to hear of a change.

Each operation keeps a sheet coherent (`CurrentOutside.perform`), so a run does; and a coherent sheet
without dirty names is current everywhere.

Values are compared as an update compares them, up to the sign of zero. The last section shows that no
more can be had: an update takes a zero that changed its sign for unchanged.
-/

namespace Recalc.Sheet

open Recalc.Graph

variable {host : Host} {reads : String × String × ItemKind → List String} {s : Sheet}

/-! ## Sheets without equations -/

/-- A sheet without equations is coherent, whatever its values are. -/
theorem Vacant.coherent (h : s.Vacant) : Coherent host reads s := by
  have hnone : ∀ n e, ¬ s.equation? n = some e := fun n e he => by
    rw [h.equation?] at he
    cases he
  have hmark : ∀ n, s.graph.mark? n = none := fun n => by
    rw [mark?_eq_none, h.names]
    exact List.not_mem_nil
  refine ⟨⟨h.atRest, h.wired.booked, h.wired.mem_names, fun n e he => ?_, fun n e he => ?_⟩,
    fun n d hnd => ?_, fun n e he => ?_, fun n e he => ?_, fun n => ?_⟩
  · exact absurd he (hnone n e)
  · exact absurd he (hnone n e)
  · rw [Depends, DependsIn, h.names] at hnd
    exact absurd hnd.2.1 List.not_mem_nil
  · exact absurd he (hnone n e)
  · exact absurd he (hnone n e)
  · rw [stampOf, hmark]
    exact Nat.zero_le _

/-- A new sheet is `Coherent`, whatever its store holds. -/
theorem coherent_create (host : Host) (options : Options) (store : Store) :
    Coherent host reads (create host options store).value := (vacant_create host options store).coherent

/-! ## Runs -/

namespace CurrentOutside

/-- `Sheet.setStatus` keeps a sheet `Coherent`. -/
theorem setStatus (h : Coherent host reads s) (name : String) (status : Status) (message : String) :
    Coherent host reads (s.setStatus name status message).value.1 := by
  unfold Sheet.setStatus
  split_ifs
  · refine (h.setResult name status message).congr fun n => ?_
    show s.isDirty n = true ↔ (s.setResult name status message).isDirty n = true
    rw [isDirty_setResult]
  · exact h

/-- An equation that is updated alone, on time, reads nothing dirty: the only dirty equation that it may
read is itself, and it does not. -/
theorem updateOnly_of_inputsClean (hlocal : host.Local reads) (h : Coherent host reads s) {name : String}
    (hclean : s.InputsClean (· = name)) : Coherent host reads (s.updateOnly host name).value.1 := by
  refine h.updateOnly hlocal fun d hnd hdirty => ?_
  obtain rfl : d = name := hclean name d rfl hnd hdirty
  exact h.linked.atRest.sound.not_depends_self h.linked.atRest.inBatch d hnd

/-- A timely operation keeps a sheet coherent. -/
theorem perform (hlocal : host.Local reads) (h : Coherent host reads s) {op : SheetOperation}
    (htimely : s.Timely host op) : Coherent host reads (s.perform host op).value.1 :=
  htimely.induction (fun _ h => h.coherent) (fun _ statement h => h.enterGroup hlocal statement)
    (fun _ id statement h => h.changeGroup hlocal id statement) (fun _ id h => h.removeGroup hlocal id)
    (fun _ _ _ hclean h => h.update_of_inputsClean hlocal hclean)
    (fun _ _ hclean h => h.updateOnly_of_inputsClean hlocal hclean)
    (fun _ name status message h => h.setStatus name status message) h

/-- For a host that is `Host.Local`, a timely run of operations keeps a sheet `Coherent`. -/
theorem performAll (hlocal : host.Local reads) (h : Coherent host reads s)
    {operations : List SheetOperation} (htimely : TimelyRun host s operations) :
    Coherent host reads (s.performAll host operations).value :=
  htimely.induction (fun _ _ htimely h => h.perform hlocal htimely) h

/-- Where nothing is dirty, every equation is current. -/
theorem current (h : Coherent host reads s) (hclean : ∀ n, ¬ s.isDirty n = true) {n : String}
    {e : Equation} (he : s.equation? n = some e) : e.Current host s.store :=
  h.current_of_not_stale n e he (hclean n)

end CurrentOutside

/-- Over a local host, after any timely run of operations and an update of everything that is not
cancelled, every equation is current: executing it succeeds with the value stored under its name, or it
fails and nothing is stored there. -/
theorem current_of_timely (host : Host) (reads : String × String × ItemKind → List String)
    (hlocal : host.Local reads) (options : Options) (store : Store)
    (operations : List SheetOperation)
    (htimely : TimelyRun host (create host options store).value operations) :
    let s := ((create host options store).value.performAll host operations).value
    let s' := (s.perform host (.update .all)).value.1
    ∀ n e, s'.equation? n = some e → e.Current host s'.store := by
  intro s s' n e he
  have hcreated : Coherent host reads (create host options store).value :=
    coherent_create host options store
  have hcoherent : Coherent host reads s := hcreated.performAll hlocal htimely
  have hupdated : Coherent host reads s' := hcoherent.perform hlocal (inputsClean_all s)
  exact hupdated.current (hcoherent.not_isDirty_of_update hlocal) he

/-- Two edits, each followed by the update that it starts. -/
theorem timelyRun_auto :
    TimelyRun Sum.host (create Sum.host { autoUpdate := true } {}).value
      [.addGroup "b=a;a=1", .editGroup (.serial 0) "b=a;a=2"] := by
  refine ⟨?_, ?_, trivial⟩
  · refine timely_addGroup (.serial 0) ?_ fun _ => inputsClean_of_seeds ?_
    · cbv
    · cbv
  · refine timely_editGroup fun _ => inputsClean_of_seeds ?_
    cbv

/-- Sums, with an update after each edit. -/
theorem current_of_timely_auto :
    let operations := [.addGroup "b=a;a=1", .editGroup (.serial 0) "b=a;a=2"]
    let s := ((create Sum.host { autoUpdate := true } {}).value.performAll Sum.host operations).value
    let s' := (s.perform Sum.host (.update .all)).value.1
    Sum.host.Local Sum.reads ∧
      TimelyRun Sum.host (create Sum.host { autoUpdate := true } {}).value operations ∧
      ∀ n e, s'.equation? n = some e → e.Current Sum.host s'.store :=
  ⟨Sum.local_host, timelyRun_auto,
    current_of_timely Sum.host Sum.reads Sum.local_host { autoUpdate := true } {} _ timelyRun_auto⟩

end Recalc.Sheet

namespace Recalc.ZeroChain

open Sheet

variable (view : Json → Json)

/-! ## The sign of zero -/

/-- Zero changes its sign after everything has been evaluated. -/
def edits : List SheetOperation := [.addGroup "+", .update .all, .editGroup (.serial 0) "-"]

/-- The sheet after `edits` and one more update. -/
def updated : Sheet :=
  (((create (host view) {} {}).value.performAll (host view) edits).value.perform (host view)
    (.update .all)).value.1

/-- The run `edits` is timely: nothing reads a dirty equation when one is updated. -/
theorem timelyRun_edits : TimelyRun (host view) (create (host view) {} {}).value edits := by
  refine ⟨?_, inputsClean_all _, ?_, trivial⟩
  · refine timely_addGroup (.serial 0) ?_ fun hauto => ?_
    · cbv
    · cbv at hauto
      exact absurd hauto Bool.false_ne_true
  · refine timely_editGroup fun hauto => ?_
    cbv at hauto
    exact absurd hauto Bool.false_ne_true

/-- The change of sign reaches `b`, which is then the same as before, and so it does not reach `c`. -/
theorem updated_eq :
    (updated view).store.get? "b" = some (.float negativeZero) ∧
      (updated view).store.get? "c" = some (view (.float .zero)) ∧
      ((updated view).equation? "c").map Equation.text = some ("c", "b", .var) := by
  refine ⟨?_, ?_, ?_⟩ <;> cbv

/-- The equation `c` is not current where what it makes of the two zeros is told apart. -/
theorem not_current {same : Option Json → Option Json → Prop}
    (hview : ¬ same (some (view (.float negativeZero))) (some (view (.float .zero)))) :
    ¬ ∀ n e, (updated view).equation? n = some e →
      e.CurrentUpTo same (host view) (updated view).store := by
  intro h
  obtain ⟨hb, hc, htext⟩ := updated_eq view
  obtain ⟨e, he, htext⟩ := Option.map_eq_some_iff.1 htext
  exact hview (same_of_current htext hb hc (h "c" e he))

/-- The sign of a number, if it has one. -/
def sign : Json → Json
  | .float x => .bool x.isNegative
  | v => v

/-- Where a host may tell the two zeros apart, an update of everything leaves equations behind: one that
copies a zero need not have its sign, and one that shows the sign need not even have the same value. -/
theorem not_current_of_told_apart :
    ((host id).LocalUpTo (· = ·) reads ∧ TimelyRun (host id) (create (host id) {} {}).value edits ∧
      ¬ ∀ n e, (updated id).equation? n = some e →
        e.CurrentUpTo (· = ·) (host id) (updated id).store) ∧
    ((host sign).LocalUpTo (· = ·) reads ∧
      TimelyRun (host sign) (create (host sign) {} {}).value edits ∧
      ¬ ∀ n e, (updated sign).equation? n = some e →
        e.CurrentUpTo SameValue (host sign) (updated sign).store) := by
  refine ⟨⟨local_host id, timelyRun_edits id, not_current id fun h => ?_⟩,
    ⟨local_host sign, timelyRun_edits sign, not_current sign fun h => ?_⟩⟩
  · have hzero : negativeZero = .zero := Json.float.inj (Option.some.inj h)
    exact absurd hzero (by decide)
  · have hsign : (Json.bool true).same (.bool false) = true := h
    cbv at hsign
    exact Bool.false_ne_true hsign

end Recalc.ZeroChain
