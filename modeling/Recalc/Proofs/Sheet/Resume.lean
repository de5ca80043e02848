import Recalc.Proofs.Host.Sum
import Recalc.Proofs.Sheet.Executions

/-!
# Resuming a cancelled update

A cancelled update tells the dirty equations that it does not come to that they were interrupted, and
leaves them dirty. Updating the same scope again attends to just these. The word of the interruption
(`interruptAll`) is not looked at by an evaluation, and an evaluation overwrites it. So the two updates
together leave the values, flags and stamps of a single one, and the outcomes too, with one exception:
an equation that the second update passes over, because nothing that it reads has changed, is clean and
still called interrupted (`update_update_eq`).
-/

namespace Recalc

/-- The equation with the word that its evaluation was interrupted. -/
def Equation.interrupted (e : Equation) : Equation :=
  { e with status := .interrupted, message := "interrupted" }

/-- An equation bears the word of an interruption if its status and its message are those of one. -/
theorem Equation.interrupted_eq_self_iff {e : Equation} :
    e.interrupted = e ↔ e.status = .interrupted ∧ e.message = "interrupted" := by
  constructor
  · intro h
    rw [← h]
    exact ⟨rfl, rfl⟩
  · rintro ⟨hstatus, hmessage⟩
    rw [interrupted, ← hstatus, ← hmessage]

namespace Sheet

open Recalc.Graph

variable {host : Host} {s s' : Sheet} {names marked : List String} {name : String}

/-! ## The word of the interruption -/

/-- Tell of some equations that they were interrupted. -/
def interruptAll (s : Sheet) (names : List String) : Sheet :=
  names.foldl (fun s name => s.modifyEquation name Equation.interrupted) s

theorem sameOutside_interruptAll (s : Sheet) (names : List String) :
    SameOutside (s.interruptAll names) s := by
  induction names generalizing s with
  | nil => exact SameOutside.refl s
  | cons name names ih =>
    exact (ih _).trans (sameOutside_modifyEquation s name Equation.interrupted)

theorem isDirty_interruptAll (s : Sheet) (names : List String) (n : String) :
    (s.interruptAll names).isDirty n = s.isDirty n := by
  rw [isDirty_eq, isDirty_eq, (sameOutside_interruptAll s names).graph]

/-- The rest of an interrupted pass. -/
theorem foldl_interrupt_eq (s : Sheet) (names : List String) :
    names.foldl interrupt s = s.interruptAll (names.filter s.isDirty) := by
  induction names generalizing s with
  | nil => rfl
  | cons name names ih =>
    have hflags : (s.interrupt name).isDirty = s.isDirty := funext (isDirty_interrupt s name)
    rw [List.foldl_cons, ih, hflags, List.filter_cons]
    unfold interrupt
    split_ifs <;> rfl

/-- `Sheet.interruptAll` tells the equations named that they were interrupted, and no others. -/
theorem equation?_interruptAll (s : Sheet) (names : List String) (n : String) :
    (s.interruptAll names).equation? n =
      if n ∈ names then (s.equation? n).map Equation.interrupted else s.equation? n := by
  induction names generalizing s with
  | nil => rfl
  | cons name names ih =>
    show ((s.modifyEquation name Equation.interrupted).interruptAll names).equation? n = _
    rw [ih, equation?_modifyEquation]
    by_cases hn : n = name
    · subst hn
      cases s.equation? n <;> simp [Equation.interrupted]
    · simp [hn]

/-- `Sheet.interruptAll` changes nothing exactly where all of the equations named bear the word already. -/
theorem interruptAll_eq_self_iff : s.interruptAll names = s ↔
    ∀ n ∈ names, ∀ e, s.equation? n = some e → e.interrupted = e := by
  constructor
  · intro hsame n hn e he
    have hword := equation?_interruptAll s names n
    rw [hsame, if_pos hn, he] at hword
    exact (Option.some.inj hword).symm
  · intro h
    induction names with
    | nil => rfl
    | cons name names ih =>
      have hfirst : s.modifyEquation name Equation.interrupted = s :=
        modifyEquation_eq_self (h name List.mem_cons_self)
      show (s.modifyEquation name Equation.interrupted).interruptAll names = s
      rw [hfirst]
      exact ih fun n hn => h n (List.mem_cons_of_mem _ hn)

/-! ## Evaluations overwrite it -/

/-- Cleaning a name does not depend on what equations were told before. -/
theorem markClean_interruptAll (s : Sheet) (marked : List String) (n : String) :
    (s.interruptAll marked).markClean n = (s.markClean n).interruptAll marked := by
  induction marked generalizing s with
  | nil => rfl
  | cons name marked ih =>
    have hfirst : (s.modifyEquation name Equation.interrupted).markClean n =
        (s.markClean n).modifyEquation name Equation.interrupted := by
      unfold modifyEquation markClean
      cases s.owners.get? name <;> rfl
    show ((s.modifyEquation name Equation.interrupted).interruptAll marked).markClean n = _
    rw [ih, hfirst]
    rfl

/-- The outcome of a run takes the place of the word of an interruption, and leaves that of others. -/
theorem conclude_interrupted (s : Sheet) (name n : String) (outcome : Outcome) (after : Store) :
    (s.modifyEquation name Equation.interrupted).conclude n outcome after =
      if name = n then s.conclude n outcome after
      else (s.conclude n outcome after).modifyEquation name Equation.interrupted := by
  -- Neither the store nor the graph that it leaves depends on the word.
  have hwith : ∀ store graph,
      { s.modifyEquation name Equation.interrupted with store, graph } =
        ({ s with store, graph } : Sheet).modifyEquation name Equation.interrupted := by
    intro store graph
    unfold modifyEquation
    cases s.owners.get? name <;> rfl
  have hset : ∀ t : Sheet, (t.modifyEquation name Equation.interrupted).setResult n outcome.status
      outcome.message =
        if name = n then t.setResult n outcome.status outcome.message
        else (t.setResult n outcome.status outcome.message).modifyEquation name
          Equation.interrupted := by
    intro t
    split_ifs with hn
    · subst hn
      exact modifyEquation_modifyEquation t name _ _
    · exact modifyEquation_comm t hn _ _
  have hsame := sameOutside_modifyEquation s name Equation.interrupted
  unfold conclude isUnstamped
  simp only [hsame.graph, hsame.store, hwith, hset]

/-- An evaluation overwrites the word of an interruption at its own equation and leaves it at another. -/
theorem evaluate_interrupted (host : Host) (s : Sheet) (name n : String) :
    ((s.modifyEquation name Equation.interrupted).evaluate host n).value =
      if name = n then (s.evaluate host n).value
      else (s.evaluate host n).value.modifyEquation name Equation.interrupted := by
  have hsame := sameOutside_modifyEquation s name Equation.interrupted
  rw [value_evaluate, value_evaluate, equation?_modifyEquation, hsame.store]
  by_cases hn : name = n
  · subst hn
    rw [if_pos rfl, if_pos rfl]
    cases he : s.equation? name with
    | none =>
      refine modifyEquation_eq_self fun e h => ?_
      rw [he] at h
      cases h
    | some e => exact (conclude_interrupted s name name _ _).trans (if_pos rfl)
  · rw [if_neg (Ne.symm hn), if_neg hn]
    cases s.equation? n with
    | none => rfl
    | some e => exact (conclude_interrupted s name n _ _).trans (if_neg hn)

/-- An evaluation overwrites the word of an interruption at its own equation and leaves it at all others. -/
theorem evaluate_interruptAll (host : Host) (s : Sheet) (marked : List String) (n : String) :
    ((s.interruptAll marked).evaluate host n).value =
      (s.evaluate host n).value.interruptAll (marked.filter (· ≠ n)) := by
  induction marked generalizing s with
  | nil => rfl
  | cons name marked ih =>
    show (((s.modifyEquation name Equation.interrupted).interruptAll marked).evaluate host n).value = _
    rw [ih, evaluate_interrupted, List.filter_cons]
    by_cases hn : name = n
    · simp [hn]
    · simp only [hn, if_false, ne_eq, not_false_eq_true, decide_true, if_true]
      rfl

/-! ## A pass over equations that were interrupted -/

/-- Whether a pass executes an equation does not depend on the word of an interruption. -/
theorem executes_interruptAll (s : Sheet) (marked : List String) (name : String) :
    (s.interruptAll marked).executes name = s.executes name := by
  rw [executes, executes, isDirty_interruptAll, (sameOutside_interruptAll s marked).graph]

/-- Attending to an equation overwrites the word of an interruption only if it executes the equation. -/
theorem attend_interruptAll (host : Host) (s : Sheet) (marked : List String) (name : String) :
    (s.interruptAll marked).attend host name = (s.attend host name).interruptAll
      (if s.executes name then marked.filter (· ≠ name) else marked) := by
  unfold attend executes
  rw [isDirty_interruptAll]
  cases hdirty : s.isDirty name with
  | false => rfl
  | true =>
    unfold refresh
    rw [(sameOutside_interruptAll s marked).graph, markClean_interruptAll]
    cases hneeds : s.graph.needsEvaluation name with
    | false => rfl
    | true => exact evaluate_interruptAll host (s.markClean name) marked name

/-- A pass executes the same equations whether or not some were interrupted before. -/
theorem executions_interruptAll (host : Host) (s : Sheet) (marked names : List String) :
    executions host (s.interruptAll marked) names = executions host s names := by
  induction names generalizing s marked with
  | nil => rfl
  | cons name names ih =>
    rw [executions, executions, executes_interruptAll, attend_interruptAll, ih]

/-- The word of the interruption stays where the pass executes nothing, and makes no other
difference. -/
theorem attends_interruptAll (host : Host) (s : Sheet) (marked names : List String) :
    names.foldl (attend host) (s.interruptAll marked) =
      (names.foldl (attend host) s).interruptAll
        (marked.filter fun n => n ∉ executions host s names) := by
  induction names generalizing s marked with
  | nil =>
    have hall : (marked.filter fun n => n ∉ executions host s []) = marked := by
      rw [List.filter_eq_self]
      exact fun n _ => decide_eq_true List.not_mem_nil
    rw [hall]
    rfl
  | cons name names ih =>
    rw [List.foldl_cons, attend_interruptAll, ih, List.foldl_cons, executions]
    congr 1
    split_ifs
    · rw [List.filter_filter]
      refine List.filter_congr fun n _ => ?_
      simp [Bool.and_comm]
    · rfl

/-- The dirty ones of some equations that a pass over them does not execute: nothing that they read has
changed. -/
def passedOver (host : Host) (s : Sheet) (names : List String) : List String :=
  names.filter fun n => s.isDirty n ∧ n ∉ executions host s names

/-- What a pass passes over does not depend on the word of an interruption. -/
theorem passedOver_interruptAll (host : Host) (s : Sheet) (marked names : List String) :
    passedOver host (s.interruptAll marked) names = passedOver host s names := by
  unfold passedOver
  simp only [isDirty_interruptAll, executions_interruptAll]

/-- What is clean is not passed over. -/
theorem passedOver_append_of_clean (host : Host) {done : List String}
    (h : ∀ n ∈ done, ¬ s.isDirty n = true) (rest : List String) :
    passedOver host s (done ++ rest) = passedOver host s rest := by
  obtain ⟨hdone, hnone⟩ := attends_of_clean host h
  have hfirst : (done.filter fun n => s.isDirty n ∧ n ∉ executions host s (done ++ rest)) = [] :=
    List.filter_eq_nil_iff.2 fun n hn hboth => h n hn (of_decide_eq_true hboth).1
  rw [passedOver, List.filter_append, hfirst, List.nil_append, executions_append, hnone, hdone,
    List.nil_append, passedOver]

/-! ## Resuming -/

/-- A pass over equations that were interrupted just before. -/
theorem attends_interrupts (host : Host) (s : Sheet) (names : List String) :
    names.foldl (attend host) (names.foldl interrupt s) =
      (names.foldl (attend host) s).interruptAll (passedOver host s names) := by
  have hpassed : passedOver host s names =
      (names.filter s.isDirty).filter fun n => n ∉ executions host s names := by
    rw [passedOver, List.filter_filter]
    refine List.filter_congr fun n _ => ?_
    simp [Bool.and_comm]
  rw [foldl_interrupt_eq, attends_interruptAll, hpassed]

/-- A pass that was interrupted after some equations, and a second one: the difference to a single pass
is the word of the interruption on what the second pass passes over. -/
theorem resumed_eq (host : Host) (s : Sheet) (done rest : List String) :
    let cancelled := rest.foldl interrupt (done.foldl (attend host) s)
    (done ++ rest).foldl (attend host) cancelled =
      ((done ++ rest).foldl (attend host) s).interruptAll
        (passedOver host cancelled (done ++ rest)) := by
  intro cancelled
  -- The second pass finds what the first one attended to clean.
  have hclean : ∀ n ∈ done, ¬ cancelled.isDirty n = true := by
    intro n hn hdirty
    rw [isDirty_interrupts, isDirty_attends] at hdirty
    exact hdirty.2 hn
  have hpassed : passedOver host cancelled rest =
      passedOver host (done.foldl (attend host) s) rest := by
    rw [show cancelled = _ from foldl_interrupt_eq _ rest, passedOver_interruptAll]
  rw [List.foldl_append, (attends_of_clean host hclean).1, attends_interrupts,
    passedOver_append_of_clean host hclean, hpassed, List.foldl_append]

/-- Upkeep changes no evaluation order. -/
theorem order_congr (hcalm : Calm s' s) (hbooks : SameBooks s' s) (scope : UpdateScope) :
    s'.order scope = s.order scope := by
  cases scope with
  | all => exact congrArg Except.ok hcalm.graph.evaluationOrder
  | equation name =>
    have horder : s'.graph.evaluationOrderFrom name = s.graph.evaluationOrderFrom name :=
      hcalm.graph.evaluationOrderOf [name]
    have hname : s'.hasEquation name = s.hasEquation name := by
      rw [hasEquation, hasEquation, hbooks.owners]
    rw [order, order, horder, hname]
  | group id =>
    have hgroup := hbooks.group? id
    rw [order, order]
    cases hg : s.group? id with
    | none =>
      rw [hg] at hgroup
      rw [Option.map_eq_none_iff.1 hgroup]
    | some g =>
      rw [hg] at hgroup
      obtain ⟨g', hg', hblank⟩ := Option.map_eq_some_iff.1 hgroup
      have hnames : g'.names = g.names := by
        have hkeys := congrArg Group.names hblank
        simpa [Group.blank, Group.names] using hkeys
      rw [hg']
      exact congrArg Except.ok ((hcalm.graph.evaluationOrderOf _).trans (by rw [hnames]))

/-- An update of a scope, cancelled or not, and one more update of it that is not cancelled leave what a
single update leaves, with the word of an interruption on what the second one passes over. -/
theorem update_update_eq (host : Host) (s : Sheet) (scope : UpdateScope) (cancelled : Nat → Bool) :
    let first := (s.update host scope cancelled).value.1
    (first.update host scope uncancelled).value.1 =
      (s.update host scope uncancelled).value.1.interruptAll
        (passedOver host first (s.scheduled scope)) := by
  intro first
  have hfirst : first.order scope = s.order scope :=
    order_congr (calm_update host s scope cancelled) (sameBooks_update host s scope cancelled) scope
  rw [scheduled]
  cases horder : s.order scope with
  | error e =>
    have hsame : first = s := update_of_error host s cancelled horder
    rw [update_of_error host s uncancelled horder, hsame,
      update_of_error host s uncancelled horder]
    rfl
  | ok names =>
    obtain ⟨done, rest, rfl, hvalue⟩ := exists_update_eq host s cancelled horder
    rw [update_uncancelled host first (hfirst.trans horder), update_uncancelled host s horder]
    have hresumed := resumed_eq host s done rest
    rw [← hvalue] at hresumed
    exact hresumed

/-- Whatever the host does: an update that is cancelled, early or late, and then started again leaves the
values, flags and stamps of a single update, and the same outcome for each equation that the second
update does not pass over; one that it passes over is left interrupted. So the two leave the same sheet
exactly if whatever is passed over is also left interrupted by a single update. -/
theorem resumed_of_cancelled (host : Host) (s : Sheet) (scope : UpdateScope)
    (cancelled : Nat → Bool) :
    let single := (s.perform host (.update scope)).value.1
    let first := (s.perform host (.updateUnless cancelled scope)).value.1
    let resumed := (first.perform host (.update scope)).value.1
    let passed := passedOver host first (s.scheduled scope)
    resumed.graph = single.graph ∧ resumed.store = single.store ∧
      (∀ n, resumed.equation? n =
        if n ∈ passed then (single.equation? n).map Equation.interrupted else single.equation? n) ∧
      (resumed = single ↔ ∀ n ∈ passed, ∀ e, single.equation? n = some e →
        e.status = .interrupted ∧ e.message = "interrupted") := by
  intro single first resumed passed
  have hresumed : resumed = single.interruptAll passed := update_update_eq host s scope cancelled
  have hsame := sameOutside_interruptAll single passed
  rw [hresumed]
  refine ⟨hsame.graph, hsame.store, equation?_interruptAll single passed, ?_⟩
  simp only [interruptAll_eq_self_iff, Equation.interrupted_eq_self_iff]

/-- An equation that was executed alone, and one that reads it. -/
def rechecked : Sheet :=
  ((create Sum.host {} {}).value.performAll Sum.host
    [.addGroup "a=1;b=a", .update .all, .updateOnly "a"]).value

/-- The sheet after a single update. -/
def recheckedOnce : Sheet := (rechecked.perform Sum.host (.update .all)).value.1

/-- The sheet after an update that is cancelled at once and one that is not cancelled. -/
def recheckedTwice : Sheet :=
  ((rechecked.perform Sum.host (.updateUnless (fun _ => true) .all)).value.1.perform Sum.host
    (.update .all)).value.1

/-- The equation that reads the other one is dirty, and as nothing has changed it need not be executed.
The cancelled update calls it interrupted, and so it stays after the second one, clean and with its
value; a single update leaves it a success. -/
theorem interrupted_of_rechecked :
    ¬ (∀ n, recheckedTwice.equation? n = recheckedOnce.equation? n) ∧
      (recheckedTwice.equation? "b").map (·.status) = some .interrupted ∧
      recheckedTwice.isDirty "b" = false ∧ recheckedTwice.store.get? "b" = some (.int 1) ∧
      (recheckedOnce.equation? "b").map (·.status) = some .success := by
  have htwice : (recheckedTwice.equation? "b").map (·.status) = some .interrupted := by cbv
  have honce : (recheckedOnce.equation? "b").map (·.status) = some .success := by cbv
  refine ⟨fun h => ?_, htwice, ?_, ?_, honce⟩
  · rw [h "b", honce] at htwice
    cases htwice
  · cbv
  · cbv

end Sheet

end Recalc
