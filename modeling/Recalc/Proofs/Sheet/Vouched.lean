import Recalc.Proofs.Host.Sum
import Recalc.Proofs.Sheet.Stamps

/-!
# Which names have values

Whoever reads a value from the store reads one that belongs to an equation: the equation exists, its last
evaluation succeeded or it was not reached since, and its node was stamped (`Vouched`). This holds over any
parser, and over any interpreter that gives values to no other names than that of the equation executed
(`Host.Confines`). It is kept by every step except the setting of a status, which may say anything
(`honest_history`).

Names lose their values when their equations are removed or edited and when an execution fails, and
until the next execution they have none (`vouched_of_run`).
-/

namespace Recalc

/-- When the host executes an equation that one of the hosts reported, it gives a value to no other name
that had none. So it is if executing an equation writes no name but its own. -/
def Host.Confines (host : Host) (hosts : Set Host) : Prop :=
  ∀ reporter ∈ hosts, ∀ e : Equation, e.Reported reporter → ∀ store name, name ≠ e.name →
    store.get? name = none → (host.exec e.code store).2.get? name = none

/-- A local host confines what it reports itself. -/
theorem Host.LocalUpTo.confines {same : Option Json → Option Json → Prop} {host : Host}
    {reads : String × String × ItemKind → List String} (h : host.LocalUpTo same reads) :
    host.Confines {host} := by
  intro reporter hreporter e he store name hname habsent
  rw [Set.mem_singleton_iff.1 hreporter] at he
  cases hstatus : (host.exec e.code store).1.isSuccess with
  | true =>
    obtain ⟨v, hv⟩ := h.get?_of_success e he store hstatus
    rw [hv, if_neg hname, habsent]
  | false => rw [h.get?_of_failure e he store hstatus, habsent]

/-- The keys of a store are the names that have values. -/
theorem Store.mem_keys_iff {store : Store} {name : String} :
    name ∈ store.keys ↔ store.get? name ≠ none := by
  rw [Store.keys, Store.get?, ← OrderedMap.isSome_get?, Option.isSome_iff_ne_none]

namespace Sheet

open Recalc.Graph

variable {host : Host} {hosts : Set Host} {s s' : Sheet} {name n : String} {e : Equation} {t : Step}
  {ts : List Step}

/-- The name is that of an equation whose node was stamped, and whose last evaluation succeeded, or which
was not reached since. -/
def Vouched (s : Sheet) (n : String) : Prop :=
  ∃ e node, s.equation? n = some e ∧ s.graph.node? n = some node ∧ node.stamp ≠ Stamp.never ∧
    (e.status = .success ∨ e.status = .interrupted)

/-- A name is vouched for if it has a stamp and an equation whose status is that of a success or an
interruption. -/
theorem vouched_iff : s.Vouched n ↔ 0 < s.graph.stampOf n ∧
    ∃ e, s.equation? n = some e ∧ (e.status = .success ∨ e.status = .interrupted) := by
  constructor
  · rintro ⟨e, node, he, hnode, hstamp, hstatus⟩
    rw [stampOf_of_node? hnode]
    exact ⟨Nat.pos_of_ne_zero hstamp, e, he, hstatus⟩
  · rintro ⟨hstamp, e, he, hstatus⟩
    obtain ⟨node, hnode⟩ := Graph.mem_names_iff.1 (mem_names_of_stampOf hstamp)
    rw [stampOf_of_node? hnode] at hstamp
    exact ⟨e, node, he, hnode, Nat.ne_of_gt hstamp, hstatus⟩

/-- An equation that stays as it is and keeps its stamp stays vouched for. -/
theorem Vouched.congr (h : s.Vouched n) (hequation : s'.equation? n = s.equation? n)
    (hstamp : s'.graph.stampOf n = s.graph.stampOf n) : s'.Vouched n := by
  rw [vouched_iff] at h ⊢
  rwa [hequation, hstamp]

/-- The nodes are the names of the equations, each of which one of the hosts reported, no startup script runs
at a reset, and every value is vouched for. -/
structure Honest (hosts : Set Host) (s : Sheet) : Prop where
  wired : s.Wired
  startupScript : s.options.startupScript = none
  reported : ∀ n e, s.equation? n = some e → ∃ reporter ∈ hosts, e.Reported reporter
  vouched : ∀ n, s.value? n ≠ none → s.Vouched n

namespace Honest

/-- What has no equation has no value. -/
theorem value?_of_equation?_eq_none (h : s.Honest hosts) (hn : s.equation? n = none) :
    s.value? n = none := by
  by_contra hvalue
  obtain ⟨e, -, he, -⟩ := h.vouched n hvalue
  cases hn.symm.trans he

/-- Upkeep keeps a sheet honest if it leaves values that are vouched for. -/
theorem upkeep (h : s.Honest hosts) (hcalm : Calm s' s) (hbooks : SameBooks s' s)
    (hoptions : s'.options = s.options) (hvouched : ∀ n, s'.value? n ≠ none → s'.Vouched n) :
    s'.Honest hosts where
  wired := hbooks.wired hcalm h.wired
  startupScript := hoptions ▸ h.startupScript
  reported := by
    intro n e he
    obtain ⟨e', he', htext⟩ := equation?_of_text? (hbooks.text? n) he
    exact (h.reported n e' he').imp fun _ hreporter => ⟨hreporter.1, hreporter.2.of_text htext⟩
  vouched := hvouched

/-- Changes of marks make no difference to who is vouched for. -/
theorem withMarks (h : s.Honest hosts) {graph : Graph} (hshape : SameShape graph s.graph)
    (hstamp : ∀ n, graph.stampOf n = s.graph.stampOf n) : ({ s with graph } : Sheet).Honest hosts :=
  h.upkeep ⟨hshape, rfl⟩ ⟨rfl, rfl, rfl⟩ rfl fun n hn => (h.vouched n hn).congr rfl (hstamp n)

theorem markClean (h : s.Honest hosts) (name : String) : (s.markClean name).Honest hosts :=
  h.withMarks (calm_markClean s name).graph (stampOf_markClean s.graph name)

theorem invalidate (h : s.Honest hosts) (name : String) : (s.invalidate name).Honest hosts := by
  have hmarked := h.wired.atRest.sound.wellFormed.marked_invalidate name
  exact h.withMarks hmarked.shape hmarked.stampOf

end Honest

/-! ## Executions -/

/-- `Sheet.setResult` changes the status and the message of one equation and no other. -/
theorem equation?_setResult (s : Sheet) (name : String) (status : Status) (message : String) (n : String) :
    (s.setResult name status message).equation? n =
      if n = name then (s.equation? n).map fun e => { e with status, message } else s.equation? n :=
  equation?_modifyEquation s name _ n

/-- Being marked as interrupted does not take away a value, or what it is worth. -/
theorem Honest.interrupt (h : s.Honest hosts) (name message : String) :
    (s.setResult name .interrupted message).Honest hosts := by
  have hsame := sameOutside_setResult s name .interrupted message
  refine h.upkeep (Calm.of_sameOutside hsame) (sameBooks_setResult s name _ _) hsame.options fun n hn => ?_
  rw [value?, hsame.store] at hn
  obtain ⟨hstamp, e, he, hstatus⟩ := vouched_iff.1 (h.vouched n hn)
  refine vouched_iff.2 ⟨hsame.graph ▸ hstamp, ?_⟩
  rw [equation?_setResult]
  split_ifs
  · exact ⟨_, congrArg _ he, .inr rfl⟩
  · exact ⟨e, he, hstatus⟩

/-- What taking over a result does to one equation at most. -/
structure Concluded (s : Sheet) (name : String) (outcome : Outcome) (after : Store) (s' : Sheet) :
    Prop where
  options : s'.options = s.options
  value? : ∀ n, s'.value? n = if outcome.isSuccess = false ∧ n = name then none else after.get? n
  equation? : ∀ n, s'.equation? n =
    if n = name then (s.equation? n).map fun e =>
      { e with status := outcome.status, message := outcome.message }
    else s.equation? n
  graph : (s'.graph = s.graph ∧
      (outcome.isSuccess = true → SameValue (s.value? name) (after.get? name))) ∨
    s'.graph = (s.graph.touch name).1

/-- `Sheet.conclude` takes over a result. -/
theorem concluded_conclude (s : Sheet) (name : String) (outcome : Outcome) (after : Store) :
    Concluded s name outcome after (s.conclude name outcome after) := by
  cases hstatus : outcome.isSuccess with
  | true =>
    rw [conclude_of_success hstatus]
    refine ⟨(sameOutside_setResult _ name _ _).options, fun n => ?_, fun n => ?_, ?_⟩
    · rw [Sheet.value?, (sameOutside_setResult _ name _ _).store]
      exact (if_neg fun h => Bool.false_ne_true (h.1.symm.trans hstatus)).symm
    · exact equation?_setResult _ name _ _ n
    · rw [(sameOutside_setResult _ name _ _).graph]
      by_cases hchanged : (after.get? name != s.store.get? name) = true
      · exact .inr (if_pos hchanged)
      · refine .inl ⟨if_neg hchanged, fun _ => SameValue.symm ?_⟩
        simpa [bne, SameValue, Sheet.value?] using hchanged
  | false =>
    rw [conclude_of_failure hstatus]
    refine ⟨(sameOutside_setResult _ name _ _).options, fun n => ?_, fun n => ?_, ?_⟩
    · rw [Sheet.value?, (sameOutside_setResult _ name _ _).store]
      simp [Store.remove, Store.get?, hstatus]
    · exact equation?_setResult _ name _ _ n
    · rw [(sameOutside_setResult _ name _ _).graph]
      by_cases hchanged : ((after.remove name).2 || s.isUnstamped name) = true
      · exact .inr (if_pos hchanged)
      · exact .inl ⟨if_neg hchanged, fun h => absurd (hstatus.symm.trans h) Bool.false_ne_true⟩

namespace Honest

/-- Another name than that of the equation executed gets no value. -/
theorem get?_exec_of_ne (h : s.Honest hosts) (hhost : host.Confines hosts) (he : s.equation? name = some e)
    (hn : n ≠ name) (habsent : s.value? n = none) : (host.exec e.code s.store).2.get? n = none := by
  obtain ⟨reporter, hreporter, hreported⟩ := h.reported name e he
  exact hhost reporter hreporter e hreported s.store n (h.wired.booked.name_eq_of_equation? he ▸ hn) habsent

/-- An execution gives no value to another name that had none. -/
theorem value?_evaluate_of_ne (h : s.Honest hosts) (hhost : host.Confines hosts) (hn : n ≠ name)
    (habsent : s.value? n = none) : (s.evaluate host name).value.value? n = none := by
  rw [value_evaluate]
  cases he : s.equation? name with
  | none => exact habsent
  | some e =>
    dsimp only
    rw [(concluded_conclude s name _ _).value?, if_neg fun hname => hn hname.2]
    exact h.get?_exec_of_ne hhost he hn habsent

/-- An execution that fails leaves its own name without a value. -/
theorem value?_evaluate_of_failure (host : Host) (he : s.equation? name = some e)
    (hfails : (host.exec e.code s.store).1.isSuccess = false) :
    (s.evaluate host name).value.value? name = none := by
  rw [value_evaluate, he]
  dsimp only
  rw [(concluded_conclude s name _ _).value?, if_pos ⟨hfails, rfl⟩]

/-- Executing an equation keeps a sheet honest: the equation has a value only if it succeeded, and then it
is stamped, unless it had the value before. -/
theorem evaluate (h : s.Honest hosts) (hhost : host.Confines hosts) (name : String) :
    (s.evaluate host name).value.Honest hosts := by
  have hcalm := calm_evaluate host s name
  have hbooks := sameBooks_evaluate host s name
  rw [value_evaluate] at hcalm hbooks ⊢
  cases he : s.equation? name with
  | none => exact h
  | some e =>
    rw [he] at hcalm hbooks
    dsimp only at hcalm hbooks ⊢
    generalize houtcome : (host.exec e.code s.store).1 = outcome
    generalize hafter : (host.exec e.code s.store).2 = after
    rw [houtcome, hafter] at hcalm hbooks
    have hconcluded := concluded_conclude s name outcome after
    refine h.upkeep hcalm hbooks hconcluded.options fun n hn => ?_
    rw [hconcluded.value?] at hn
    by_cases hname : n = name
    · subst hname
      have hstatus : outcome.isSuccess = true := by
        by_contra hfails
        exact hn (if_pos ⟨Bool.not_eq_true _ ▸ hfails, rfl⟩)
      rw [if_neg fun hfails => Bool.false_ne_true (hfails.1.symm.trans hstatus)] at hn
      have hsuccess : outcome.status = .success := eq_of_beq hstatus
      refine vouched_iff.2 ⟨?_, ?_⟩
      · rcases hconcluded.graph with ⟨hgraph, hsame⟩ | hgraph
        · -- The value is the same as before, so there was one before.
          have hbefore : s.value? n ≠ none := fun habsent => by
            have hvalue := hsame hstatus
            rw [habsent] at hvalue
            exact hn hvalue.eq_none
          rw [hgraph]
          exact (vouched_iff.1 (h.vouched n hbefore)).1
        · rw [hgraph, stampOf_touch ((h.wired.mem_names n).2 ⟨e, he⟩)]
          exact Nat.succ_pos _
      · rw [hconcluded.equation?, if_pos rfl, he]
        exact ⟨_, rfl, .inl hsuccess⟩
    · rw [if_neg fun hfails => hname hfails.2] at hn
      have hbefore : s.value? n ≠ none := fun habsent =>
        hn (hafter ▸ h.get?_exec_of_ne hhost he hname habsent)
      refine (h.vouched n hbefore).congr ?_ ?_
      · rw [hconcluded.equation?, if_neg hname]
      · rcases hconcluded.graph with ⟨hgraph, -⟩ | hgraph
        · rw [hgraph]
        · rw [hgraph, stampOf_touch_of_ne hname]

end Honest

/-! ## Steps -/

/-- The step executes an equation, and that fails. -/
def Step.Fails (t : Step) (n : String) : Prop := t.executed = some n ∧ t.failed = true

/-- A step that executes nothing does not fail. -/
theorem Step.not_fails_quiet : ¬ (Step.quiet s s').Fails n := fun h => Option.some_ne_none n h.1.symm

/-- If executing an equation fails, there is one, and the outcome is none of success. -/
theorem exists_of_fails (h : s.fails host name = true) :
    ∃ e, s.equation? name = some e ∧ (host.exec e.code s.store).1.isSuccess = false := by
  obtain ⟨e, he, hfails⟩ := (Option.any_eq_true _ _).1 h
  exact ⟨e, he, by simpa using hfails⟩

/-- The step leaves an honest sheet. Only the name of the equation that it executes may get a value, and
only if the execution does not fail; and a name whose equation comes, goes or is edited has none. -/
structure Step.Honest (hosts : Set Host) (t : Step) : Prop where
  after : t.after.Honest hosts
  absent : ∀ n, t.executed ≠ some n → t.before.value? n = none → t.after.value? n = none
  edited : ∀ n, t.after.text? n ≠ t.before.text? n → t.after.value? n = none
  failed : ∀ n, t.Fails n → t.after.value? n = none

/-- A step that executes nothing, edits nothing and gives no values. -/
theorem Honest.quiet (h : s'.Honest hosts) (htext : ∀ n, s'.text? n = s.text? n)
    (hvalue : ∀ n, s.value? n = none → s'.value? n = none) : (Step.quiet s s').Honest hosts where
  after := h
  absent := fun n _ => hvalue n
  edited := fun n hn => absurd (htext n) hn
  failed := fun _ hn => absurd hn Step.not_fails_quiet

/-- A step that executes an equation and changes marks. -/
theorem Honest.execution {inPass : Bool} {u : Sheet} (hu : u.Honest hosts) (hhost : host.Confines hosts)
    (hstore : u.store = s.store) (hequation : ∀ n, u.equation? n = s.equation? n)
    (hs' : s'.Honest hosts) (hvalue : ∀ n, s'.value? n = (u.evaluate host name).value.value? n)
    (htext : ∀ n, s'.text? n = s.text? n) : (Step.execution host s name s' inPass).Honest hosts where
  after := hs'
  absent := by
    intro n hn habsent
    have hne : n ≠ name := fun h => hn (congrArg some h.symm)
    refine (hvalue n).trans (hu.value?_evaluate_of_ne hhost hne ?_)
    rwa [value?, hstore]
  edited := fun n hn => absurd (htext n) hn
  failed := by
    rintro n ⟨hexecuted, hfailed⟩
    obtain rfl : name = n := Option.some.inj hexecuted
    obtain ⟨e, he, hfails⟩ := exists_of_fails hfailed
    refine (hvalue name).trans (value?_evaluate_of_failure host ((hequation name).trans he) ?_)
    rwa [hstore]

/-- What is detached loses its value, what is attached is new or was detached, and the rest is kept. -/
theorem Edited.honest (hhost : host ∈ hosts) {graph : Graph} {detached seeds : List String}
    {attached : List ParseItem} (h : Edited s graph detached attached seeds s') (hs : s.Honest hosts)
    (hrest : s'.AtRest)
    (hfresh : ∀ n ∈ attached.map (·.name), n ∈ detached ∨ n ∉ s.graph.names)
    (hreported : ∀ item ∈ attached, ∃ statement items,
      host.parse .statement statement = .ok items ∧ item ∈ items) : (Step.quiet s s').Honest hosts := by
  -- A name that has a value had it before, so it was not detached, and therefore not attached.
  have hkept : ∀ n, s'.value? n ≠ none →
      s.value? n ≠ none ∧ n ∉ detached ∧ n ∉ attached.map (·.name) := by
    intro n hn
    have hdetached : n ∉ detached := fun hmem => hn (h.store_of_detached n hmem)
    have hbefore : s.value? n ≠ none := by
      rw [value?, h.store n hdetached] at hn
      exact hn
    refine ⟨hbefore, hdetached, fun hattached => ?_⟩
    have hname := mem_names_of_stampOf (vouched_iff.1 (hs.vouched n hbefore)).1
    exact (hfresh n hattached).elim hdetached fun hnew => hnew hname
  refine ⟨⟨h.wired hs.wired hrest, h.options ▸ hs.startupScript, ?_, ?_⟩, ?_, ?_, ?_⟩
  · intro n e he
    rcases h.equation?_cases he with ⟨item, hitem, -, htext⟩ | ⟨-, -, e', he', htext⟩
    · obtain ⟨statement, items, hparse, hmem⟩ := hreported item hitem
      exact ⟨host, hhost, statement, items, hparse, item, hmem, htext.symm⟩
    · exact (hs.reported n e' he').imp fun _ hreporter => ⟨hreporter.1, hreporter.2.of_text htext⟩
  · intro n hn
    obtain ⟨hbefore, hdetached, hattached⟩ := hkept n hn
    refine (hs.vouched n hbefore).congr (h.equation?_of_kept n hdetached hattached) ?_
    exact (h.marked.stampOf n).trans (stampOf_congr (h.rewired.mark?_of_kept n hdetached hattached))
  · intro n _ habsent
    by_contra hn
    exact (hkept n hn).1 habsent
  · intro n htext
    by_contra hn
    obtain ⟨-, hdetached, hattached⟩ := hkept n hn
    exact htext (h.text?_of_kept n hdetached hattached)
  · exact fun _ hn => absurd hn Step.not_fails_quiet

/-- Over one of the hosts, a structural edit leaves an honest sheet. -/
theorem EditStep.honest (hhost : host ∈ hosts) (h : EditStep host s s') (hs : s.Honest hosts)
    (hrest : s'.AtRest) : (Step.quiet s s').Honest hosts := by
  cases h with
  | same sheet =>
    have hlinks := sheet.sameLinks hs.wired.booked hrest
    have hvalue : ∀ n, s'.value? n = s.value? n := fun n => congrArg (·.get? n) sheet.store
    refine Honest.quiet ⟨hs.wired.of_sameLinks hlinks, sheet.options ▸ hs.startupScript, ?_, ?_⟩
      hlinks.text? fun n hn => (hvalue n).trans hn
    · intro n e he
      exact hs.reported n e ((sheet.equation? n).symm.trans he)
    · intro n hn
      rw [hvalue] at hn
      exact (hs.vouched n hn).congr (sheet.equation? n) (stampOf_congr (sheet.mark? n))
  | edited edited nodup fresh reported => exact edited.honest hhost hs hrest fresh reported

/-- A pass keeps a sheet honest with every equation that it comes to. -/
theorem honest_visitStep (hhost : host.Confines hosts) (cancelled : Nat → Bool) {p : UpdatePass}
    (hs : p.sheet.Honest hosts) (name : String) : (visitStep host cancelled p name).Honest hosts := by
  have htext := (sameBooks_visit host cancelled p name).text?
  rw [← after_visitStep] at htext
  rcases visitStep_cases host cancelled p name with ⟨-, hstep⟩ | hstep | hstep | hstep <;>
    rw [hstep] at htext ⊢
  · have hclean := hs.markClean name
    exact hclean.execution hhost rfl (fun _ => rfl) (hclean.evaluate hhost name) (fun _ => rfl) htext
  · refine (hs.interrupt name _).quiet htext fun n hn => ?_
    exact (congrArg (·.get? n) (sameOutside_setResult p.sheet name _ _).store).trans hn
  · exact (hs.markClean name).quiet htext fun _ hn => hn
  · exact hs.quiet htext fun _ hn => hn

/-- `Sheet.updateOnly` is an honest step. -/
theorem honest_updateOnly (hhost : host.Confines hosts) (hs : s.Honest hosts)
    (hname : s.hasEquation name = true) :
    (Step.execution host s name (s.updateOnly host name).value.1 false).Honest hosts := by
  have htext := (sameBooks_updateOnly host s name).text?
  rw [value_updateOnly host hname] at htext ⊢
  have hmarked := ((hs.evaluate hhost name).invalidate name).markClean name
  exact hs.execution hhost rfl (fun _ => rfl) hmarked (fun _ => rfl) htext

/-- A vacant sheet without a startup script is `Honest` if its store is empty. -/
theorem honest_vacant (h : s.Vacant) (hscript : s.options.startupScript = none)
    (hempty : ∀ n, s.value? n = none) : s.Honest hosts where
  wired := h.wired
  startupScript := hscript
  reported := fun n e he => absurd ((h.equation? n).symm.trans he).symm (Option.some_ne_none e)
  vouched := fun n hn => absurd (hempty n) hn

/-- `Sheet.reset` is an honest step, since no startup script runs. -/
theorem honest_reset (hs : s.Honest hosts) : (Step.quiet s (s.reset host).value).Honest hosts := by
  have hvalue : (s.reset host).value.options = s.options ∧
      ∀ n, (s.reset host).value.value? n = none := by
    unfold reset startUp
    dsimp only
    rw [hs.startupScript]
    exact ⟨rfl, fun n => rfl⟩
  obtain ⟨hoptions, hempty⟩ := hvalue
  exact ⟨honest_vacant (vacant_reset host s) (hoptions ▸ hs.startupScript) hempty,
    fun n _ _ => hempty n, fun n _ => hempty n, fun n _ => hempty n⟩

/-- Over one of the hosts that confines what they report, every step of an operation that sets no status
leaves an honest sheet. -/
theorem honest_steps (hhost : host ∈ hosts) (hconfines : host.Confines hosts) (hs : s.Honest hosts)
    {op : SheetOperation} (hop : ∀ name status message, op ≠ .setStatus name status message) :
    ∀ t ∈ s.steps host op, t.Honest hosts := by
  refine steps_induction (P := Sheet.Honest hosts) (Q := Step.Honest hosts) (fun t h => h.after)
    ?_ ?_ ?_ ?_ ?_ ?_ ?_ ?_ hs
  · exact fun cancelled p name h => honest_visitStep hconfines cancelled h name
  · exact fun s statement h => (h.wired.enterGroup host statement).honest hhost h
      (h.wired.atRest.enterGroup host statement)
  · exact fun s id statement h => (h.wired.changeGroup host id statement).honest hhost h
      (h.wired.atRest.changeGroup host id statement)
  · exact fun s id h => (h.wired.removeGroup host id).honest hhost h (h.wired.atRest.removeGroup id)
  · exact fun s name h hname => honest_updateOnly hconfines h hname
  · exact fun s h => honest_reset h
  · exact fun s h => h.quiet (fun _ => rfl) fun _ hn => hn
  · exact fun name status message heq => absurd heq (hop name status message)

/-- The steps of a run that sets no statuses leave honest sheets, if its hosts confine what they report. -/
theorem honest_history (hhosts : ∀ host ∈ hosts, host.Confines hosts) (hs : s.Honest hosts)
    {operations : List (Host × SheetOperation)} (hmem : ∀ operation ∈ operations, operation.1 ∈ hosts)
    (hoperations : ∀ operation ∈ operations, ∀ name status message,
      operation.2 ≠ .setStatus name status message) :
    ∀ t ∈ s.history operations, t.Honest hosts := by
  refine history_induction (P := Sheet.Honest hosts) (fun t h => h.after) (fun operation ho s h => ?_) hs
  have hhost := hmem operation ho
  exact honest_steps hhost (hhosts operation.1 hhost) h (hoperations operation ho)

/-- A name whose equation is not executed gets no value. -/
theorem Leads.value?_eq_none (h : Leads s ts s') (hsteps : ∀ t ∈ ts, t.Honest hosts)
    (hexecuted : ∀ t ∈ ts, t.executed ≠ some n) (habsent : s.value? n = none) : s'.value? n = none := by
  induction ts generalizing s with
  | nil => exact h ▸ habsent
  | cons t ts ih =>
    obtain ⟨rfl, hrest⟩ := h
    rw [List.forall_mem_cons] at hsteps hexecuted
    exact ih hrest hsteps.2 hexecuted.2 (hsteps.1.absent n hexecuted.1 habsent)

/-! ## Runs -/

/-- After any run over an empty store, without a startup script and without setting statuses, over hosts each
of which confines what any of them reports, and after each step of it:

* Every key of the store is the name of an equation whose node was stamped, and whose last evaluation
  succeeded, or which was not reached since.
* So a name without an equation has no value; and a name whose equation came, went or was edited in a step,
  or was executed with a failure, has none as long as the equation is not executed. -/
theorem vouched_of_run (hosts : Set Host) (hhosts : ∀ host ∈ hosts, host.Confines hosts) (host : Host)
    (options : Options) (store : Store) (operations : List (Host × SheetOperation))
    (hmem : ∀ operation ∈ operations, operation.1 ∈ hosts) (hscript : options.startupScript = none)
    (hstore : store.keys = [])
    (hoperations : ∀ operation ∈ operations, ∀ name status message,
      operation.2 ≠ .setStatus name status message) :
    let start := (create host options store).value
    let s := (start.performEach operations).value
    (∀ n ∈ s.store.keys, s.Vouched n) ∧
    (∀ t ∈ start.history operations, ∀ n ∈ t.after.store.keys, t.after.Vouched n) ∧
    (∀ n, s.equation? n = none → n ∉ s.store.keys) ∧
    ∀ n earlier t later, start.history operations = earlier ++ t :: later →
      t.after.text? n ≠ t.before.text? n ∨ t.Fails n → (∀ u ∈ later, u.executed ≠ some n) →
        n ∉ s.store.keys := by
  intro start s
  have hcreated : start = { options, store } := by
    show (startUp host { options, store }).value = _
    unfold startUp
    rw [hscript]
    rfl
  have hstart : start.Honest hosts := by
    refine honest_vacant (vacant_create host options store) (hcreated ▸ hscript) fun n => ?_
    rw [hcreated]
    by_contra hn
    exact absurd (hstore ▸ Store.mem_keys_iff.2 hn) List.not_mem_nil
  have hsteps := honest_history hhosts hstart hmem hoperations
  have hleads := leads_history start operations
  have hs : s.Honest hosts := hleads.keeps (Q := Step.Honest hosts) (fun t h => h.after) hstart hsteps
  refine ⟨fun n hn => ?_, fun t ht n hn => ?_, fun n hn => ?_,
    fun n earlier t later hsplit hlost hlater => ?_⟩
  · exact hs.vouched n (Store.mem_keys_iff.1 hn)
  · exact (hsteps t ht).after.vouched n (Store.mem_keys_iff.1 hn)
  · exact fun hmem => Store.mem_keys_iff.1 hmem (hs.value?_of_equation?_eq_none hn)
  · rw [hsplit] at hsteps hleads
    obtain ⟨u, -, hu⟩ := leads_append.1 hleads
    have ht := hsteps t (List.mem_append_right _ List.mem_cons_self)
    have habsent : t.after.value? n = none := hlost.elim (ht.edited n) (ht.failed n)
    have hrest : ∀ u ∈ later, u.Honest hosts := fun u hmem =>
      hsteps u (List.mem_append_right _ (List.mem_cons_of_mem t hmem))
    exact fun hmem => Store.mem_keys_iff.1 hmem (hu.2.value?_eq_none hrest hlater habsent)

/-- Two equations are updated; then the first one is edited, and the second one executed alone. -/
def outdated : List (Host × SheetOperation) :=
  [(Sum.host, .addGroup "a=1;b=a"), (Sum.host, .update .all),
    (Sum.host, .editGroup (.serial 0) "a=2;b=a"), (Sum.host, .updateOnly "b")]

/-- The first equation comes in the first step and is edited in the fourth; the second one is executed in the
third step, and fails in the fifth. -/
theorem glance_outdated : ((create Sum.host {} {}).value.history outdated).map
    (fun t => (t.executed, t.failed, t.after.text? "a" == t.before.text? "a")) =
      [(none, false, false), (some "a", false, true), (some "b", false, true)] ++
        (none, false, false) :: [(some "b", true, true)] := by
  cbv

/-- Before the edit both have values; after it the old value of the first one is not seen any more, and so
the second one fails and has none either. -/
theorem vouched_of_run_outdated :
    let start := (create Sum.host {} {}).value
    (start.performEach (outdated.take 2)).value.store.keys = ["a", "b"] ∧
      (∃ earlier t later, start.history outdated = earlier ++ t :: later ∧
        t.after.text? "a" ≠ t.before.text? "a" ∧ ∀ u ∈ later, u.executed ≠ some "a") ∧
      "a" ∉ (start.performEach outdated).value.store.keys ∧
      (∃ earlier t, start.history outdated = earlier ++ [t] ∧ t.Fails "b") ∧
      "b" ∉ (start.performEach outdated).value.store.keys := by
  have hhosts : ∀ host ∈ ({Sum.host} : Set Host), host.Confines {Sum.host} := by
    rintro _ rfl
    exact Sum.local_host.confines
  obtain ⟨-, -, -, hlost⟩ := vouched_of_run {Sum.host} hhosts Sum.host {} {} outdated
    (by simp [outdated]) rfl rfl (by simp [outdated])
  obtain ⟨earlier, rest, hsplit, -, hrest⟩ := List.map_eq_append_iff.1 glance_outdated
  obtain ⟨t, later, rfl, ht, hlater⟩ := List.map_eq_cons_iff.1 hrest
  obtain ⟨u, none', rfl, hu, hnone⟩ := List.map_eq_cons_iff.1 hlater
  obtain rfl := List.map_eq_nil_iff.1 hnone
  have hedited : t.after.text? "a" ≠ t.before.text? "a" := by
    intro htext
    simp [htext] at ht
  have hexecuted : u.executed = some "b" := congrArg Prod.fst hu
  have hfails : u.Fails "b" := ⟨hexecuted, congrArg (·.2.1) hu⟩
  have hquiet : ∀ u' ∈ [u], u'.executed ≠ some "a" := by
    rw [List.forall_mem_singleton, hexecuted]
    decide
  have hlast : (create Sum.host {} {}).value.history outdated = (earlier ++ [t]) ++ [u] :=
    hsplit.trans (List.append_assoc earlier [t] [u]).symm
  refine ⟨by cbv, ⟨earlier, t, [u], hsplit, hedited, hquiet⟩, ?_, ⟨earlier ++ [t], u, hlast, hfails⟩, ?_⟩
  · exact hlost "a" earlier t [u] hsplit (.inl hedited) hquiet
  · exact hlost "b" (earlier ++ [t]) u [] hlast (.inr hfails) fun _ hmem => absurd hmem List.not_mem_nil

end Sheet

end Recalc
