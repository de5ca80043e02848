import Recalc.Proofs.Sheet.Coherent
import Recalc.Proofs.Sheet.Course

/-!
# Update passes

A pass keeps a sheet coherent if it is `Ready`: whatever dirty name a listed equation depends on is
listed, and listed earlier. Then the dependencies of an equation are clean when the pass comes to it, and
it may become clean, executed or skipped. From the moment a pass is interrupted it clears no flag.

What a pass makes of a sheet is stated for any part of its list (`Swept`), so that one equation is the
step of an induction over the list.
-/

namespace Recalc.Sheet

open Recalc.Graph Relation

variable {host : Host} {reads : String × String × ItemKind → List String} {s s' : Sheet}
  {cancelled : Nat → Bool} {p p' p'' : UpdatePass} {name : String} {names : List String}

/-! ## One equation -/

/-- Clearing a mark makes no equation stale. -/
theorem CurrentOutside.markClean {stale : String → Prop} (h : CurrentOutside host reads stale s)
    (name : String) : CurrentOutside host reads stale (s.markClean name) :=
  h.withFlags (sameShape_markClean s.graph name) (stampOf_markClean s.graph name)
    (clock_markClean s.graph name)

/-- A dirty equation that depends on nothing dirty is refreshed: it is the one that becomes clean, and
the sheet stays coherent. -/
theorem CurrentOutside.refresh (hlocal : host.Local reads) (h : Coherent host reads s)
    (hdirty : s.isDirty name = true)
    (hclean : ∀ d, s.graph.Depends name d → ¬ s.isDirty d = true) :
    Coherent host reads (s.refresh host name) ∧
      ∀ n, (s.refresh host name).isDirty n = true ↔ s.isDirty n = true ∧ n ≠ name := by
  have hmem : name ∈ s.graph.names := by
    rw [isDirty_eq] at hdirty
    exact mem_names_of_isDirty hdirty
  obtain ⟨e, he⟩ := (h.linked.mem_names name).1 hmem
  have hmarked := h.markClean name
  have hexec := hmarked.linked.executed (n := name) (e := e) hlocal he
  have hflags := isDirty_refresh host s name
  refine ⟨?_, hflags⟩
  have hkept : CurrentOutside host reads (fun n => s.isDirty n = true) (s.refresh host name) := by
    unfold Sheet.refresh
    split_ifs
    · exact hmarked.evaluate hlocal hdirty
    · exact hmarked
  -- It is current if it was executed, and also if it was skipped, for then it was fresh.
  have hcurrent : ∀ e', (s.refresh host name).equation? name = some e' →
      e'.Current host (s.refresh host name).store := by
    intro e' he'
    unfold Sheet.refresh at he' ⊢
    split_ifs at he' ⊢ with hneeds
    · exact hexec.current hlocal hmarked.linked he he'
    · have hfresh : s.graph.Fresh name :=
        (h.linked.atRest.sound.wellFormed.needsEvaluation_eq_false_iff hmem).1 (by simpa using hneeds)
      exact h.current_of_fresh name e' he' hfresh
  refine (hkept.remove hcurrent fun d hd => ?_).congr fun n => (hflags n).symm
  exact hclean d (((calm_refresh host s name).graph.depends_iff name d).1 hd)

/-! ## A pass -/

/-- The dirty names that listed equations depend on are listed, each before what depends on it. -/
structure Ready (s : Sheet) (names : List String) : Prop where
  pairwise : names.Pairwise fun a b => ¬ s.graph.Depends a b
  mem_of_dirty : ∀ n ∈ names, ∀ d, s.graph.Depends n d → s.isDirty d = true → d ∈ names

/-- The first equation of a pass depends on nothing dirty. -/
theorem Ready.not_isDirty (h : Ready s (name :: names)) (hs : s.AtRest) {d : String}
    (hd : s.graph.Depends name d) : ¬ s.isDirty d = true := by
  intro hdirty
  rcases List.mem_cons.1 (h.mem_of_dirty name List.mem_cons_self d hd hdirty) with rfl | hmem
  · exact hs.sound.not_depends_self hs.inBatch d hd
  · exact List.rel_of_pairwise_cons h.pairwise hmem hd

/-- Once its first equation is clean, the rest of a pass is ready. -/
theorem Ready.tail (h : Ready s (name :: names)) (hshape : SameShape s'.graph s.graph)
    (hdirty : ∀ n, s'.isDirty n = true → s.isDirty n = true ∧ n ≠ name) : Ready s' names where
  pairwise := (List.pairwise_cons.1 h.pairwise).2.imp fun hab h => hab ((hshape.depends_iff _ _).1 h)
  mem_of_dirty := by
    intro n hn d hnd hd
    obtain ⟨hold, hne⟩ := hdirty d hd
    have hmem := h.mem_of_dirty n (List.mem_cons_of_mem _ hn) d ((hshape.depends_iff n d).1 hnd) hold
    exact (List.mem_cons.1 hmem).resolve_left hne

/-- What a pass makes of a sheet: it stays coherent, and unless the pass is interrupted the equations
listed are the ones that become clean. -/
structure Swept (host : Host) (reads : String × String × ItemKind → List String) (p : UpdatePass)
    (names : List String) (p' : UpdatePass) : Prop where
  coherent : Coherent host reads p'.sheet
  shape : SameShape p'.sheet.graph p.sheet.graph
  interrupted : p.interrupted = true → p'.interrupted = true
  isDirty_iff : p'.interrupted = false → ∀ n,
    p'.sheet.isDirty n = true ↔ p.sheet.isDirty n = true ∧ n ∉ names

theorem Swept.refl (h : Coherent host reads p.sheet) : Swept host reads p [] p :=
  ⟨h, SameShape.refl _, id, fun _ n => by simp⟩

/-- Going over some names and then over others sweeps all of them. -/
theorem Swept.append {names' : List String} (h : Swept host reads p names p')
    (h' : Swept host reads p' names' p'') : Swept host reads p (names ++ names') p'' where
  coherent := h'.coherent
  shape := h'.shape.trans h.shape
  interrupted := fun hp => h'.interrupted (h.interrupted hp)
  isDirty_iff := by
    intro hp n
    have hbefore : p'.interrupted = false := by
      rw [← Bool.not_eq_true]
      exact fun htrue => Bool.false_ne_true (hp.symm.trans (h'.interrupted htrue))
    rw [h'.isDirty_iff hp, h.isDirty_iff hbefore, List.mem_append, not_or, and_assoc]

/-- Looking at an equation keeps the sheet coherent, if the pass is interrupted or ready. -/
theorem swept_visit (hlocal : host.Local reads) (h : Coherent host reads p.sheet)
    (hready : p.interrupted = true ∨ Ready p.sheet (name :: names)) :
    Swept host reads p [name] (p.visit host cancelled name).value := by
  have hstill : p.interrupted = true → (p.check cancelled).interrupted = true := by
    intro hp
    rwa [check_of_interrupted cancelled hp]
  rw [value_visit]
  split_ifs with hdirty hcancelled
  · have hsame := sameOutside_setResult p.sheet name .interrupted "interrupted"
    refine ⟨?_, (Calm.of_sameOutside hsame).graph, hstill, fun hp => ?_⟩
    · exact (h.setResult name .interrupted "interrupted").congr fun n => by rw [isDirty_setResult]
    · exact absurd (hp.symm.trans hcancelled) Bool.false_ne_true
  · have hpass := hready.resolve_left fun hp => hcancelled (hstill hp)
    obtain ⟨hcoherent, hflags⟩ := h.refresh hlocal hdirty fun d =>
      hpass.not_isDirty h.linked.atRest
    refine ⟨hcoherent, (calm_refresh host p.sheet name).graph, hstill, fun _ n => ?_⟩
    rw [List.mem_singleton]
    exact hflags n
  · refine ⟨h, SameShape.refl _, id, fun _ n => ?_⟩
    rw [List.mem_singleton, iff_self_and]
    rintro hn rfl
    exact hdirty hn

/-- A pass that is ready keeps the sheet coherent. -/
theorem swept_visits (hlocal : host.Local reads) (cancelled : Nat → Bool) (names : List String)
    (h : Coherent host reads p.sheet) (hready : p.interrupted = true ∨ Ready p.sheet names) :
    Swept host reads p names (names.foldlM (UpdatePass.visit host cancelled) p).value := by
  induction names generalizing p with
  | nil => exact Swept.refl h
  | cons name names ih =>
    have hfirst : Swept host reads p [name] (p.visit host cancelled name).value :=
      swept_visit hlocal h hready
    rw [List.foldlM_cons, Traced.value_bind]
    -- A pass that is interrupted by now does no more harm, and the rest of any other one is ready.
    refine hfirst.append (ih hfirst.coherent ?_)
    cases hp : (p.visit host cancelled name).value.interrupted with
    | true => exact Or.inl rfl
    | false =>
      right
      have hpass := hready.resolve_left fun hi => Bool.false_ne_true (hp.symm.trans
        (hfirst.interrupted hi))
      refine hpass.tail hfirst.shape fun n hn => ?_
      simpa using (hfirst.isDirty_iff hp n).1 hn

/-- An update whose pass is ready keeps the sheet coherent. -/
theorem CurrentOutside.update (hlocal : host.Local reads) (h : Coherent host reads s)
    {scope : UpdateScope} (hready : ∀ names, s.order scope = .ok names → Ready s names) :
    Coherent host reads (s.update host scope cancelled).value.1 := by
  unfold Sheet.update
  cases horder : s.order scope with
  | error e => exact h
  | ok names =>
    exact (swept_visits hlocal cancelled names (p := { sheet := s }) h
      (Or.inr (hready names horder))).coherent

/-! ## Which passes are ready -/

/-- The equations that a scope names. -/
def seeds (s : Sheet) : UpdateScope → List String
  | .all => s.graph.names
  | .equation name => [name]
  | .group id => ((s.group? id).map Group.names).getD []

/-- A scope covers the equations that it names and everything that depends on them. -/
def Covers (s : Sheet) (scope : UpdateScope) (n : String) : Prop :=
  ∃ m ∈ s.seeds scope, ReflTransGen s.graph.Depends n m

/-- None of some equations depends directly on a dirty one that is not among them. -/
def InputsClean (s : Sheet) (covered : String → Prop) : Prop :=
  ∀ n d, covered n → s.graph.Depends n d → s.isDirty d = true → covered d

namespace Wired

/-- The names of a scope that is found are nodes. -/
theorem seeds_subset (h : s.Wired) {scope : UpdateScope}
    (horder : s.order scope = .ok names) : ∀ m ∈ s.seeds scope, m ∈ s.graph.names := by
  intro m hm
  cases scope with
  | all => exact hm
  | equation name =>
    rw [order] at horder
    split_ifs at horder with hname
    obtain rfl := List.mem_singleton.1 hm
    exact (h.mem_names m).2 (h.booked.hasEquation_iff.1 hname)
  | group id =>
    cases hgroup : s.group? id with
    | none =>
      rw [seeds, hgroup] at hm
      exact absurd hm List.not_mem_nil
    | some g =>
      rw [seeds, hgroup] at hm
      obtain ⟨e, he⟩ := Option.isSome_iff_exists.1 (OrderedMap.isSome_get?.2 hm)
      exact (h.mem_names m).2 ⟨e, h.booked.equation?_of_entryIn? ((entryIn?_of_group? hgroup m).trans he)⟩

/-- The order of a scope lists what it covers, each name once and in an evaluation order. -/
theorem order_eq (h : s.Wired) {scope : UpdateScope}
    (horder : s.order scope = .ok names) :
    ∃ covered : List String, covered.Nodup ∧ names = s.graph.orderWithin covered ∧
      ∀ n, n ∈ covered ↔ s.Covers scope n := by
  have hg := h.atRest.sound
  have hb := h.atRest.inBatch
  have hclosure : ∀ n, n ∈ s.graph.dependentClosure (s.seeds scope) ↔ s.Covers scope n := by
    intro n
    rw [hg.wellFormed.mem_dependentClosure]
    refine exists_congr fun m => and_congr_right fun hm => ?_
    exact and_iff_right (h.seeds_subset horder m hm)
  cases scope with
  | all =>
    refine ⟨s.graph.names, s.graph.names_nodup, (Except.ok.inj horder).symm, fun n => ?_⟩
    constructor
    · intro hn
      exact ⟨n, hn, ReflTransGen.refl⟩
    · rintro ⟨m, hm, hreach⟩
      rcases ReflTransGen.cases_head hreach with rfl | ⟨d, hd, -⟩
      · exact hm
      · exact hd.2.1
  | equation name =>
    refine ⟨_, hg.wellFormed.nodup_dependentClosure [name], ?_, hclosure⟩
    rw [order] at horder
    split_ifs at horder
    rw [← hg.evaluationOrderOf_eq hb]
    exact (Except.ok.inj horder).symm
  | group id =>
    refine ⟨_, hg.wellFormed.nodup_dependentClosure (s.seeds (.group id)), ?_, hclosure⟩
    rw [← hg.evaluationOrderOf_eq hb]
    cases hgroup : s.group? id with
    | none =>
      rw [order, hgroup] at horder
      cases horder
    | some g =>
      rw [order, hgroup] at horder
      rw [seeds, hgroup]
      exact (Except.ok.inj horder).symm

/-- The pass over a scope lists what the scope covers. -/
theorem mem_order (h : s.Wired) {scope : UpdateScope}
    (horder : s.order scope = .ok names) {n : String} : n ∈ names ↔ s.Covers scope n := by
  obtain ⟨covered, hnodup, rfl, hcovers⟩ := h.order_eq horder
  rw [h.atRest.sound.mem_orderWithin h.atRest.inBatch hnodup, hcovers]

/-- A pass over a scope with clean inputs is ready. -/
theorem ready (h : s.Wired) {scope : UpdateScope}
    (hclean : s.InputsClean (s.Covers scope)) (horder : s.order scope = .ok names) :
    Ready s names where
  pairwise := by
    obtain ⟨covered, hnodup, rfl, -⟩ := h.order_eq horder
    exact h.atRest.sound.pairwise_orderWithin h.atRest.inBatch hnodup
  mem_of_dirty := by
    intro n hn d hnd hd
    rw [h.mem_order horder] at hn ⊢
    exact hclean n d hn hnd hd

end Wired

/-- All equations together have clean inputs. -/
theorem inputsClean_all (s : Sheet) : s.InputsClean (s.Covers .all) := fun _ d _ hnd _ =>
  ⟨d, hnd.2.2, ReflTransGen.refl⟩

/-- Equations that include every dirty one have clean inputs. -/
theorem inputsClean_of_dirty {covered : String → Prop} (p : String → Bool)
    (hp : ∀ d, p d = true → covered d) (h : (s.graph.names.filter s.isDirty).all p = true) :
    s.InputsClean covered := fun _ d _ hnd hd =>
  hp d (List.all_eq_true.1 h d (List.mem_filter.2 ⟨hnd.2.2, hd⟩))

/-- A scope that names every dirty equation has clean inputs. -/
theorem inputsClean_of_seeds {scope : UpdateScope}
    (h : (s.graph.names.filter s.isDirty).all (s.seeds scope).contains = true) :
    s.InputsClean (s.Covers scope) :=
  inputsClean_of_dirty _ (fun d hd => ⟨d, List.contains_iff_mem.1 hd, ReflTransGen.refl⟩) h

namespace CurrentOutside

/-- An update of a scope with clean inputs keeps the sheet coherent. -/
theorem update_of_inputsClean (hlocal : host.Local reads) (h : Coherent host reads s)
    {scope : UpdateScope} (hclean : s.InputsClean (s.Covers scope)) :
    Coherent host reads (s.update host scope cancelled).value.1 :=
  h.update hlocal fun _ => h.linked.wired.ready hclean

/-- After an update of everything that is not cancelled, nothing is dirty. -/
theorem not_isDirty_of_update (hlocal : host.Local reads) (h : Coherent host reads s) (n : String) :
    ¬ (s.update host .all uncancelled).value.1.isDirty n = true := by
  have hready := h.linked.wired.ready (inputsClean_all s) rfl
  have hswept := swept_visits hlocal uncancelled s.graph.evaluationOrder
    (p := { sheet := s }) h (Or.inr hready)
  have hall := hswept.isDirty_iff (visits_uncancelled host s.graph.evaluationOrder rfl).1 n
  intro hdirty
  obtain ⟨hold, hnot⟩ := hall.1 hdirty
  rw [isDirty_eq] at hold
  exact hnot ((h.linked.atRest.sound.mem_evaluationOrder h.linked.atRest.inBatch).2
    (mem_names_of_isDirty hold))

end CurrentOutside

/-! ## One equation alone -/

/-- Executing one known equation: the execution, a mark on all that depends on it, and its own mark
cleared. -/
theorem value_updateOnly (host : Host) (hname : s.hasEquation name = true) :
    (s.updateOnly host name).value.1 =
      ((s.evaluate host name).value.invalidate name).markClean name := by
  unfold updateOnly
  rw [if_pos hname]
  rfl

/-- Executing one equation alone clears its flag and sets those of everything that depends on it. -/
theorem isDirty_updateOnly (hs : s.Wired) (host : Host) (hname : s.hasEquation name = true)
    (n : String) : (s.updateOnly host name).value.1.isDirty n = true ↔
      (s.isDirty n = true ∨ ReflTransGen s.graph.Depends n name) ∧ n ≠ name := by
  have hshape := (calm_evaluate host s name).graph
  have hmarked : Marked (s.evaluate host name).value.graph [name]
      ((s.evaluate host name).value.invalidate name).graph :=
    (hshape.wellFormed hs.atRest.sound.wellFormed).marked_invalidate name
  have hmem : name ∈ (s.evaluate host name).value.graph.names := by
    rw [hshape.names, hs.mem_names]
    exact hs.booked.hasEquation_iff.1 hname
  rw [value_updateOnly host hname, isDirty_markClean,
    isDirty_eq ((s.evaluate host name).value.invalidate name), hmarked.isDirty_iff,
    ← isDirty_eq (s.evaluate host name).value, isDirty_evaluate, hshape.depends_eq]
  simp [hmem]

/-- Executing one equation that depends on nothing dirty, and marking what depends on it, keeps the
sheet coherent. -/
theorem CurrentOutside.updateOnly (hlocal : host.Local reads) (h : Coherent host reads s)
    (hclean : ∀ d, s.graph.Depends name d → ¬ s.isDirty d = true) :
    Coherent host reads (s.updateOnly host name).value.1 := by
  by_cases hname : s.hasEquation name = true
  swap
  · unfold Sheet.updateOnly
    rw [if_neg hname]
    exact h
  have hflags := isDirty_updateOnly h.linked.wired host hname
  rw [value_updateOnly host hname] at hflags ⊢
  obtain ⟨e, he⟩ := h.linked.booked.hasEquation_iff.1 hname
  have hexec := h.linked.executed hlocal he
  have hshape : SameShape (s.evaluate host name).value.graph s.graph := (calm_evaluate host s name).graph
  -- Until the end, what depends on the equation is taken for stale with what is dirty.
  have hstale : CurrentOutside host reads
      (fun n => s.isDirty n = true ∨ ReflTransGen s.graph.Depends n name) s := by
    refine h.mono (fun n => Or.inl) fun n d hnd hd => ?_
    rcases hd with hdirty | hreach
    · exact Or.inl (h.stale_of_depends n d hnd hdirty)
    · exact Or.inr (ReflTransGen.head hnd hreach)
  have hexecuted := hstale.evaluate hlocal (Or.inr (ReflTransGen.refl : ReflTransGen _ name name))
  set s' := (s.evaluate host name).value
  have hmarked : Marked s'.graph [name] (s'.invalidate name).graph :=
    hexecuted.linked.atRest.sound.wellFormed.marked_invalidate name
  have hkept := (hexecuted.withFlags hmarked.shape hmarked.stampOf hmarked.clock).markClean name
  refine (hkept.remove (fun e' he' => hexec.current hlocal h.linked he he') fun d hd => ?_).congr
    fun n => (hflags n).symm
  have hnd : s.graph.Depends name d := by
    have hcalm := (calm_markClean (s'.invalidate name) name).graph.trans hmarked.shape
    exact (hshape.depends_iff name d).1 ((hcalm.depends_iff name d).1 hd)
  rintro (hdirty | hreach)
  · exact hclean d hnd hdirty
  · exact h.linked.atRest.sound.not_reaches_of_depends h.linked.atRest.inBatch hnd hreach

end Recalc.Sheet
