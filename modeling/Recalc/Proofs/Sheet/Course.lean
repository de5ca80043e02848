import Recalc.Proofs.Sheet.Tables

/-!
# The course of a pass

Until it is interrupted, a pass attends to one equation after the other; from then on it only tells of
the dirty ones that they were interrupted. So a pass that may be cancelled is one that is not, over a
first part of its list, and telling so over the rest (`exists_visits_eq`). A pass clears the flags of
the equations that it attends to, and changes no other ones.
-/

namespace Recalc.Sheet

open Recalc.Graph

variable {s : Sheet} {p : UpdatePass}

/-! ## Flags -/

/-- `Sheet.markClean` cleans one name and leaves what is dirty among the others. -/
theorem isDirty_markClean (s : Sheet) (name n : String) :
    (s.markClean name).isDirty n = true ↔ s.isDirty n = true ∧ n ≠ name := by
  rw [isDirty_eq, isDirty_eq]
  exact Graph.isDirty_markClean s.graph name n

theorem isDirty_setResult (s : Sheet) (name : String) (status : Status) (message : String)
    (n : String) : (s.setResult name status message).isDirty n = s.isDirty n := by
  rw [isDirty_eq, isDirty_eq, (sameOutside_setResult s name status message).graph]

theorem isDirty_conclude (s : Sheet) (name : String) (outcome : Outcome) (after : Store)
    (n : String) : (s.conclude name outcome after).isDirty n = s.isDirty n := by
  have htouch : ∀ changed : Bool,
      (if changed = true then (s.graph.touch name).1 else s.graph).isDirty n = s.graph.isDirty n := by
    intro changed
    cases changed with
    | false => rfl
    | true => exact isDirty_touch s.graph name n
  unfold conclude
  split_ifs
  · rw [isDirty_setResult, isDirty_eq, isDirty_eq]
    exact htouch _
  · rw [isDirty_setResult, isDirty_eq, isDirty_eq]
    exact htouch _

/-- Executing an equation changes no flag. -/
theorem isDirty_evaluate (host : Host) (s : Sheet) (name n : String) :
    (s.evaluate host name).value.isDirty n = s.isDirty n := by
  rw [value_evaluate]
  cases s.equation? name with
  | none => rfl
  | some e => exact isDirty_conclude s name _ _ n

/-- `Sheet.refresh` cleans one name and leaves what is dirty among the others. -/
theorem isDirty_refresh (host : Host) (s : Sheet) (name n : String) :
    (s.refresh host name).isDirty n = true ↔ s.isDirty n = true ∧ n ≠ name := by
  rw [← isDirty_markClean]
  unfold refresh
  split_ifs
  · rw [isDirty_evaluate]
  · exact Iff.rfl

/-! ## One equation -/

/-- What a pass that is not interrupted does with an equation. -/
def attend (host : Host) (s : Sheet) (name : String) : Sheet :=
  if s.isDirty name then s.refresh host name else s

/-- What a pass that is interrupted does with an equation. -/
def interrupt (s : Sheet) (name : String) : Sheet :=
  if s.isDirty name then s.setResult name .interrupted "interrupted" else s

/-- `Sheet.attend` cleans one name and leaves what is dirty among the others. -/
theorem isDirty_attend (host : Host) (s : Sheet) (name n : String) :
    (s.attend host name).isDirty n = true ↔ s.isDirty n = true ∧ n ≠ name := by
  unfold attend
  split_ifs with hname
  · exact isDirty_refresh host s name n
  · rw [iff_self_and]
    rintro hn rfl
    exact hname hn

theorem isDirty_interrupt (s : Sheet) (name n : String) :
    (s.interrupt name).isDirty n = s.isDirty n := by
  unfold interrupt
  split_ifs
  · exact isDirty_setResult s name _ _ n
  · rfl

/-- A pass that is interrupted asks no more. -/
theorem check_of_interrupted (cancelled : Nat → Bool) (hp : p.interrupted = true) :
    p.check cancelled = p := if_pos hp

/-- A pass that is never cancelled counts its question and goes on. -/
theorem check_uncancelled (hp : p.interrupted = false) :
    p.check uncancelled = { p with checks := p.checks + 1 } := by
  cases p
  cases hp
  rfl

/-- A pass that is interrupted stays interrupted. -/
theorem interrupted_visit (host : Host) (cancelled : Nat → Bool) (name : String)
    (hp : p.interrupted = true) : (p.visit host cancelled name).value.interrupted = true := by
  rw [value_visit, check_of_interrupted cancelled hp]
  split_ifs <;> exact hp

/-- A visit interrupts or attends to its equation, according to whether the pass is interrupted after it. -/
theorem sheet_visit (host : Host) (cancelled : Nat → Bool) (p : UpdatePass) (name : String) :
    (p.visit host cancelled name).value.sheet =
      if (p.visit host cancelled name).value.interrupted then p.sheet.interrupt name
      else p.sheet.attend host name := by
  unfold attend interrupt
  rw [value_visit]
  by_cases hdirty : p.sheet.isDirty name = true
  · by_cases hcheck : (p.check cancelled).interrupted = true
    · simp [hdirty, hcheck]
    · simp [hdirty, hcheck]
  · simp [hdirty]

/-- A pass that is never cancelled is never interrupted. -/
theorem interrupted_visit_uncancelled (host : Host) (name : String) (hp : p.interrupted = false) :
    (p.visit host uncancelled name).value.interrupted = false := by
  rw [value_visit, check_uncancelled hp]
  split_ifs with hdirty hcancelled
  · exact absurd (hp.symm.trans hcancelled) Bool.false_ne_true
  · exact hp
  · exact hp

/-! ## Passes -/

/-- Attending to some names cleans them and leaves what is dirty among the others. -/
theorem isDirty_attends (host : Host) (names : List String) (s : Sheet) (n : String) :
    (names.foldl (attend host) s).isDirty n = true ↔ s.isDirty n = true ∧ n ∉ names := by
  induction names generalizing s with
  | nil => simp
  | cons name names ih =>
    rw [List.foldl_cons, ih, isDirty_attend, List.mem_cons, not_or, and_assoc]

/-- Interrupting some names keeps every dirty flag. -/
theorem isDirty_interrupts (names : List String) (s : Sheet) (n : String) :
    (names.foldl interrupt s).isDirty n = s.isDirty n := by
  induction names generalizing s with
  | nil => rfl
  | cons name names ih => rw [List.foldl_cons, ih, isDirty_interrupt]

/-- Once a pass is interrupted, it attends to nothing any more. -/
theorem sheet_visits_of_interrupted (host : Host) (cancelled : Nat → Bool) (names : List String)
    (hp : p.interrupted = true) :
    (names.foldlM (UpdatePass.visit host cancelled) p).value.sheet = names.foldl interrupt p.sheet := by
  induction names generalizing p with
  | nil => rfl
  | cons name names ih =>
    have hvisit := interrupted_visit host cancelled name hp
    rw [List.foldlM_cons, Traced.value_bind, ih hvisit, sheet_visit, if_pos hvisit]
    rfl

/-- A pass attends to a first part of its list and tells of the rest that it was interrupted. -/
theorem exists_visits_eq (host : Host) (cancelled : Nat → Bool) (names : List String)
    (p : UpdatePass) :
    ∃ done rest, names = done ++ rest ∧
      (names.foldlM (UpdatePass.visit host cancelled) p).value.sheet =
        rest.foldl interrupt (done.foldl (attend host) p.sheet) := by
  induction names generalizing p with
  | nil => exact ⟨[], [], rfl, rfl⟩
  | cons name names ih =>
    have hsheet := sheet_visit host cancelled p name
    rw [List.foldlM_cons, Traced.value_bind]
    cases hvisit : (p.visit host cancelled name).value.interrupted with
    | true =>
      refine ⟨[], name :: names, rfl, ?_⟩
      rw [sheet_visits_of_interrupted host cancelled names hvisit, hsheet, if_pos hvisit]
      rfl
    | false =>
      obtain ⟨done, rest, rfl, hrest⟩ := ih (p.visit host cancelled name).value
      refine ⟨name :: done, rest, rfl, ?_⟩
      rw [hrest, hsheet, if_neg (by rw [hvisit]; exact Bool.false_ne_true)]
      rfl

/-- A pass that is never cancelled is not interrupted, and attends to its whole list. -/
theorem visits_uncancelled (host : Host) (names : List String) (hp : p.interrupted = false) :
    (names.foldlM (UpdatePass.visit host uncancelled) p).value.interrupted = false ∧
      (names.foldlM (UpdatePass.visit host uncancelled) p).value.sheet =
        names.foldl (attend host) p.sheet := by
  induction names generalizing p with
  | nil => exact ⟨hp, rfl⟩
  | cons name names ih =>
    have hvisit := interrupted_visit_uncancelled host name hp
    obtain ⟨hinterrupted, hsheet⟩ := ih hvisit
    rw [List.foldlM_cons, Traced.value_bind]
    refine ⟨hinterrupted, ?_⟩
    rw [hsheet, sheet_visit, if_neg (by rw [hvisit]; exact Bool.false_ne_true)]
    rfl

/-! ## Updates -/

/-- An update attends to a first part of the equations in order and interrupts the rest. -/
theorem exists_update_eq (host : Host) (s : Sheet) {scope : UpdateScope} (cancelled : Nat → Bool)
    {names : List String} (horder : s.order scope = .ok names) :
    ∃ done rest, names = done ++ rest ∧
      (s.update host scope cancelled).value.1 = rest.foldl interrupt (done.foldl (attend host) s) := by
  unfold update
  rw [horder]
  exact exists_visits_eq host cancelled names { sheet := s }

/-- An update that is not cancelled attends to all equations in order. -/
theorem update_uncancelled (host : Host) (s : Sheet) {scope : UpdateScope} {names : List String}
    (horder : s.order scope = .ok names) :
    (s.update host scope uncancelled).value.1 = names.foldl (attend host) s := by
  unfold update
  rw [horder]
  exact (visits_uncancelled host names (p := { sheet := s }) rfl).2

/-- A scope that is not found is not updated. -/
theorem update_of_error (host : Host) (s : Sheet) {scope : UpdateScope} (cancelled : Nat → Bool)
    {e : SheetError} (horder : s.order scope = .error e) :
    (s.update host scope cancelled).value.1 = s := by
  unfold update
  rw [horder]
  rfl

end Recalc.Sheet
