import Recalc.Proofs.Host.Sum
import Recalc.Proofs.Sheet.Timely

/-!
# Dirty flags spread to dependents

A later update trusts the flags: it passes over a clean equation without looking at what the equation
reads. So whatever depends on a dirty equation should be dirty (`FlagsClosed`). Structural edits keep
this, for they mark all that depends on what they change.

An update clears the flags of the equations that it covers, whether or not what they read is up to date,
and executing an equation marks nothing. So an update keeps the flags closed if its inputs are clean, and
only then (`flagsClosed_update_iff`): over any host the flags are closed after every timely run, and the
next update that is not timely opens them. The last section shows an equation that is left behind in
this way: no later update brings it up to date.
-/

namespace Recalc.Sheet

open Recalc.Graph Relation

variable {host : Host} {s s' : Sheet} {name : String} {names : List String} {scope : UpdateScope}

/-- What depends directly on a dirty equation is dirty. -/
def FlagsClosed (s : Sheet) : Prop :=
  ∀ n d, s.graph.Depends n d → s.isDirty d = true → s.isDirty n = true

namespace FlagsClosed

/-- What depends on a dirty equation through others is dirty. -/
theorem isDirty_of_transGen (h : s.FlagsClosed) {n d : String} (hreach : TransGen s.graph.Depends n d)
    (hd : s.isDirty d = true) : s.isDirty n = true := by
  induction hreach using TransGen.head_induction_on with
  | single hnd => exact h _ d hnd hd
  | head hnm _ ih => exact h _ _ hnm ih

/-- Changes that keep the shape of the graph and all flags keep the flags closed. -/
theorem congr (h : s.FlagsClosed) (hdepends : ∀ n d, s'.graph.Depends n d → s.graph.Depends n d)
    (hflags : ∀ n, s'.isDirty n = s.isDirty n) : s'.FlagsClosed := by
  intro n d hnd hd
  rw [hflags] at hd ⊢
  exact h n d (hdepends n d hnd) hd

end FlagsClosed

/-- A vacant sheet is `FlagsClosed`, since nothing is dirty. -/
theorem Vacant.flagsClosed (h : s.Vacant) : s.FlagsClosed := by
  intro n d hnd
  have hname : n ∈ s.graph.names := hnd.2.1
  rw [h.names] at hname
  exact absurd hname List.not_mem_nil

/-! ## Structural edits -/

/-- A structural edit marks what depends on what it changes. -/
theorem FlagsClosed.editStep (h : s.FlagsClosed) (hstep : EditStep host s s') : s'.FlagsClosed := by
  cases hstep with
  | same sheet =>
    refine h.congr (fun n d hnd => ?_) sheet.isDirty
    rw [Depends, DependsIn, sheet.mem_edges, sheet.names] at hnd
    exact hnd
  | edited edited nodup fresh reported =>
    intro n d hnd hd
    rw [isDirty_eq] at hd ⊢
    exact edited.isDirty_of_depends h fresh hnd hd

/-! ## Updates -/

/-- What a pass that is not cancelled leaves dirty: all that it does not list. -/
theorem isDirty_update (host : Host) (horder : s.order scope = .ok names) (n : String) :
    (s.update host scope uncancelled).value.1.isDirty n = true ↔ s.isDirty n = true ∧ n ∉ names := by
  rw [update_uncancelled host s horder, isDirty_attends]

/-- A timely update, cancelled or not, keeps the flags closed. -/
theorem FlagsClosed.update (h : s.FlagsClosed) (hs : s.Wired) (hclean : s.InputsClean (s.Covers scope))
    (cancelled : Nat → Bool) : (s.update host scope cancelled).value.1.FlagsClosed := by
  cases horder : s.order scope with
  | error e =>
    rw [update_of_error host s cancelled horder]
    exact h
  | ok names =>
    obtain ⟨done, rest, rfl, hvalue⟩ := exists_update_eq host s cancelled horder
    have hready := hs.ready hclean horder
    have hflags : ∀ n, (s.update host scope cancelled).value.1.isDirty n = true ↔
        s.isDirty n = true ∧ n ∉ done := by
      intro n
      rw [hvalue, isDirty_interrupts, isDirty_attends]
    intro n d hnd hd
    rw [(calm_update host s scope cancelled).graph.depends_iff] at hnd
    rw [hflags] at hd ⊢
    refine ⟨h n d hnd hd.1, fun hn => hd.2 ?_⟩
    -- What is dirty and read by an equation of the pass comes before it, so it was attended to as well.
    have hlisted := hready.mem_of_dirty n (List.mem_append_left _ hn) d hnd hd.1
    refine (List.mem_append.1 hlisted).resolve_right fun hrest => ?_
    exact (List.pairwise_append.1 hready.pairwise).2.2 n hn d hrest hnd

/-- An update that is not cancelled keeps the flags closed exactly if it is timely. -/
theorem flagsClosed_update_iff (h : s.FlagsClosed) (hs : s.Wired) (horder : s.order scope = .ok names) :
    (s.update host scope uncancelled).value.1.FlagsClosed ↔ s.InputsClean (s.Covers scope) := by
  refine ⟨fun hclosed n d hn hnd hd => ?_, fun hclean => h.update hs hclean uncancelled⟩
  have hcovers := fun m => hs.mem_order horder (n := m)
  by_contra hnot
  have hdirty := hclosed n d
    (((calm_update host s scope uncancelled).graph.depends_iff n d).2 hnd)
    ((isDirty_update host horder d).2 ⟨hd, fun hlisted => hnot ((hcovers d).1 hlisted)⟩)
  exact ((isDirty_update host horder n).1 hdirty).2 ((hcovers n).2 hn)

/-- Executing one equation keeps the flags closed exactly if the equation reads nothing dirty. -/
theorem flagsClosed_updateOnly_iff (h : s.FlagsClosed) (hs : s.Wired)
    (hname : s.hasEquation name = true) :
    (s.updateOnly host name).value.1.FlagsClosed ↔ s.InputsClean (· = name) := by
  have hflags := isDirty_updateOnly hs host hname
  have hdepends : ∀ n d, (s.updateOnly host name).value.1.graph.Depends n d ↔ s.graph.Depends n d :=
    (calm_updateOnly host s name).graph.depends_iff
  constructor
  · rintro hclosed n d rfl hnd hd
    by_contra hne
    have hdirty := hclosed n d ((hdepends n d).2 hnd) ((hflags d).2 ⟨Or.inl hd, hne⟩)
    exact ((hflags n).1 hdirty).2 rfl
  · intro hclean n d hnd hd
    rw [hdepends] at hnd
    obtain ⟨hd, hne⟩ := (hflags d).1 hd
    refine (hflags n).2 ⟨?_, ?_⟩
    · exact hd.imp (h n d hnd) (ReflTransGen.head hnd)
    · rintro rfl
      rcases hd with hdirty | hreach
      · exact hne (hclean n d rfl hnd hdirty)
      · exact hs.atRest.sound.not_reaches_of_depends hs.atRest.inBatch hnd hreach

/-- Updating one equation whose inputs are clean keeps a sheet `FlagsClosed`. -/
theorem FlagsClosed.updateOnly (h : s.FlagsClosed) (hs : s.Wired) (hclean : s.InputsClean (· = name)) :
    (s.updateOnly host name).value.1.FlagsClosed := by
  by_cases hname : s.hasEquation name = true
  · exact (flagsClosed_updateOnly_iff h hs hname).2 hclean
  · unfold Sheet.updateOnly
    rw [if_neg hname]
    exact h

/-! ## Runs -/

/-- `Sheet.setStatus` keeps a sheet `FlagsClosed`. -/
theorem FlagsClosed.setStatus (h : s.FlagsClosed) (name : String) (status : Status) (message : String) :
    (s.setStatus name status message).value.1.FlagsClosed := by
  have hshape := (calm_setStatus s name status message).graph
  refine h.congr (fun n d => (hshape.depends_iff n d).1) fun n => ?_
  unfold Sheet.setStatus
  split_ifs
  · exact isDirty_setResult s name status message n
  · rfl

/-- A timely operation keeps the flags closed. -/
theorem wired_flagsClosed_perform {op : SheetOperation} (htimely : s.Timely host op)
    (h : s.Wired ∧ s.FlagsClosed) :
    (s.perform host op).value.1.Wired ∧ (s.perform host op).value.1.FlagsClosed := by
  refine htimely.induction (P := fun s => s.Wired ∧ s.FlagsClosed)
    (fun s hvacant => ⟨hvacant.wired, hvacant.flagsClosed⟩) ?_ ?_ ?_ ?_ ?_ ?_ h
  · rintro s statement ⟨hs, hflags⟩
    have hstep := hs.enterGroup host statement
    exact ⟨hstep.wired hs (hs.atRest.enterGroup host statement), hflags.editStep hstep⟩
  · rintro s id statement ⟨hs, hflags⟩
    have hstep := hs.changeGroup host id statement
    exact ⟨hstep.wired hs (hs.atRest.changeGroup host id statement), hflags.editStep hstep⟩
  · rintro s id ⟨hs, hflags⟩
    have hstep := hs.removeGroup host id
    exact ⟨hstep.wired hs (hs.atRest.removeGroup id), hflags.editStep hstep⟩
  · rintro s scope cancelled hclean ⟨hs, hflags⟩
    exact ⟨(sameBooks_update host s scope cancelled).wired (calm_update host s scope cancelled) hs,
      hflags.update hs hclean cancelled⟩
  · rintro s name hclean ⟨hs, hflags⟩
    exact ⟨(sameBooks_updateOnly host s name).wired (calm_updateOnly host s name) hs,
      hflags.updateOnly hs hclean⟩
  · rintro s name status message ⟨hs, hflags⟩
    exact ⟨(sameBooks_setStatus s name status message).wired (calm_setStatus s name status message) hs,
      hflags.setStatus name status message⟩

/-- Over any host, after any timely run whatever depends on a dirty equation is dirty; and it is still
so after one more update that is not cancelled, of a scope or of one equation alone, exactly if nothing
that the update covers reads a dirty equation that it does not cover. -/
theorem isDirty_of_timely (host : Host) (options : Options) (store : Store)
    (operations : List SheetOperation)
    (htimely : TimelyRun host (create host options store).value operations) :
    let s := ((create host options store).value.performAll host operations).value
    (∀ n d, TransGen s.graph.Depends n d → s.isDirty d = true → s.isDirty n = true) ∧
      (∀ scope names, s.order scope = .ok names →
        ((s.perform host (.update scope)).value.1.FlagsClosed ↔ s.InputsClean (s.Covers scope))) ∧
      ∀ name, s.hasEquation name = true →
        ((s.perform host (.updateOnly name)).value.1.FlagsClosed ↔ s.InputsClean (· = name)) := by
  intro s
  have hcreated := vacant_create host options store
  obtain ⟨hs, hflags⟩ : s.Wired ∧ s.FlagsClosed :=
    htimely.induction (P := fun s => s.Wired ∧ s.FlagsClosed) (fun _ _ => wired_flagsClosed_perform)
      ⟨hcreated.wired, hcreated.flagsClosed⟩
  exact ⟨fun _ _ => hflags.isDirty_of_transGen, fun _ _ => flagsClosed_update_iff hflags hs,
    fun _ => flagsClosed_updateOnly_iff hflags hs⟩

/-- Executing an equation alone, when everything is up to date, is timely. -/
theorem timelyRun_updateOnly :
    TimelyRun Sum.host (create Sum.host {} {}).value
      [.addGroup "a=1;b=a;c=b", .update .all, .updateOnly "a"] := by
  refine ⟨timely_addGroup (.serial 0) ?_ fun hauto => ?_, inputsClean_all _, ?_, trivial⟩
  · cbv
  · cbv at hauto
    exact absurd hauto Bool.false_ne_true
  · refine inputsClean_of_dirty (· == "a") (fun _ => beq_iff_eq.1) ?_
    cbv

/-- A timely run that updates one equation alone leaves what depends on it dirty. -/
theorem isDirty_of_timely_updateOnly :
    let operations := [.addGroup "a=1;b=a;c=b", .update .all, .updateOnly "a"]
    let s := ((create Sum.host {} {}).value.performAll Sum.host operations).value
    TimelyRun Sum.host (create Sum.host {} {}).value operations ∧
      (∀ n d, TransGen s.graph.Depends n d → s.isDirty d = true → s.isDirty n = true) ∧
      (∀ scope names, s.order scope = .ok names →
        ((s.perform Sum.host (.update scope)).value.1.FlagsClosed ↔ s.InputsClean (s.Covers scope))) ∧
      ∀ name, s.hasEquation name = true →
        ((s.perform Sum.host (.updateOnly name)).value.1.FlagsClosed ↔ s.InputsClean (· = name)) :=
  ⟨timelyRun_updateOnly, isDirty_of_timely Sum.host {} {} _ timelyRun_updateOnly⟩

/-! ## An update that comes too early -/

/-- An equation is updated before the one that it reads. -/
def early : Sheet :=
  ((create Sum.host {} {}).value.performAll Sum.host
    [.addGroup "a=1;b=a", .update (.equation "b")]).value

/-- The equation `b` of `early` failed and is clean, while what it reads is dirty. An update of everything
then executes the other equation only: it leaves the failure as it is, though the graph says that `b` has to
be evaluated. -/
theorem not_flagsClosed_early :
    ¬ (∀ n d, TransGen early.graph.Depends n d → early.isDirty d = true → early.isDirty n = true) ∧
      let s := (early.perform Sum.host (.update .all)).value.1
      s.store.get? "a" = some (.int 1) ∧ s.store.get? "b" = none ∧
        (s.equation? "b").map (·.status) = some .nameError ∧
        s.graph.needsEvaluation "b" = true ∧ s.isDirty "b" = false := by
  refine ⟨fun h => ?_, ?_, ?_, ?_, ?_, ?_⟩
  · have hreads : early.graph.Depends "b" "a" := by
      refine ⟨List.contains_iff_mem.1 ?_, List.contains_iff_mem.1 ?_, List.contains_iff_mem.1 ?_⟩ <;> cbv
    have hclean : early.isDirty "b" = false := by cbv
    have hdirty : early.isDirty "a" = true := by cbv
    exact Bool.false_ne_true (hclean.symm.trans (h "b" "a" (TransGen.single hreads) hdirty))
  · cbv
  · cbv
  · cbv
  · cbv
  · cbv

end Recalc.Sheet
