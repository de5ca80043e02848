import Recalc.Proofs.Host.Sum
import Recalc.Proofs.Sheet.Stamps

/-!
# Executing an equation again

A fresh equation stays fresh while nothing that it reads is stirred (`Leads.fresh`), and no pass
executes a fresh equation. An execution that gives its equation a new stamp leaves it fresh, if all that
it reads has stamps. So if a pass executes an equation again that was not edited, then something that it
reads was stirred in between, or the earlier execution did not leave it fresh: something that it reads
had no stamp, or the execution left the stamp of the equation alone (`stirredSince_of_repeated`).

The last section runs into both exceptions. A stamp tells when a value changed, not when the equation
was executed: where an execution ends with the value that was there before, the changes that it answered
count again.
-/

namespace Recalc

namespace Graph

variable {g : Graph} {n : String}

/-- Only a node can be in need of evaluation. -/
theorem mem_names_of_needsEvaluation (h : g.needsEvaluation n = true) : n ∈ g.names := by
  rw [mem_names_iff]
  unfold needsEvaluation at h
  cases hn : g.node? n with
  | none =>
    rw [hn] at h
    cases h
  | some node => exact ⟨node, rfl⟩

end Graph

namespace Sheet

open Recalc.Graph

variable {host : Host} {s s' : Sheet} {n d : String} {text : String × String × ItemKind}
  {e e' t : Step} {ts between : List Step}

/-! ## Freshness is kept -/

/-- Steps in which a name keeps its text lead to a sheet with the same text. -/
theorem Leads.text?_eq (h : Leads s ts s') (htext : ∀ t ∈ ts, t.after.text? n = t.before.text? n) :
    s'.text? n = s.text? n := by
  induction ts generalizing s with
  | nil => rw [← show s = s' from h]
  | cons t ts ih =>
    obtain ⟨rfl, hts⟩ := h
    rw [ih hts fun u hu => htext u (List.mem_cons_of_mem t hu), htext t List.mem_cons_self]

/-- An equation that is not edited stays fresh in a step that stirs nothing of what it reads. -/
theorem Step.Orderly.fresh (h : t.Orderly) (hn : t.before.text? n = some text)
    (hn' : t.after.text? n = some text)
    (hstirs : ∀ d, ⟨n, d⟩ ∈ t.before.graph.edges.toList → t.stirs d = false)
    (hfresh : t.before.graph.Fresh n) : t.after.graph.Fresh n := by
  have hle := h.stampOf_le n text hn hn'
  refine ⟨hfresh.1.trans_le hle, fun d hd => ?_⟩
  have hedge := (h.mem_edges n text hn hn' d).1 hd
  obtain ⟨hpos, hlt⟩ := hfresh.2 d hedge
  rw [h.stampOf_eq d (hstirs d hedge) hpos]
  exact ⟨hpos, hlt.trans_le hle⟩

/-- In a run of steps that leave its text and stir nothing of what it reads, an equation stays fresh. -/
theorem Leads.fresh (h : Leads s ts s') (horderly : ∀ t ∈ ts, t.Orderly) (hn : s.text? n = some text)
    (htext : ∀ t ∈ ts, t.after.text? n = t.before.text? n)
    (hstirs : ∀ d, ⟨n, d⟩ ∈ s.graph.edges.toList → ∀ t ∈ ts, t.stirs d = false)
    (hfresh : s.graph.Fresh n) : s'.graph.Fresh n := by
  induction ts generalizing s with
  | nil => exact (show s = s' from h) ▸ hfresh
  | cons t ts ih =>
    obtain ⟨rfl, hts⟩ := h
    have hstep := horderly t List.mem_cons_self
    have hn' : t.after.text? n = some text := (htext t List.mem_cons_self).trans hn
    refine ih hts (fun u hu => horderly u (List.mem_cons_of_mem t hu)) hn'
      (fun u hu => htext u (List.mem_cons_of_mem t hu)) (fun d hd u hu => ?_) ?_
    · exact hstirs d ((hstep.mem_edges n text hn hn' d).1 hd) u (List.mem_cons_of_mem t hu)
    · exact hstep.fresh hn hn' (fun d hd => hstirs d hd t List.mem_cons_self) hfresh

/-! ## Executions that leave an equation fresh -/

/-- An execution that gives its equation a new stamp leaves it fresh, if all that it reads has
stamps. -/
theorem Step.Orderly.fresh_of_renewed (h : t.Orderly) (hexecuted : t.executed = some n)
    (hrenewed : t.after.graph.stampOf n ≠ t.before.graph.stampOf n)
    (hstamps : ∀ d, ⟨n, d⟩ ∈ t.after.graph.edges.toList → 0 < t.after.graph.stampOf d) :
    t.after.graph.Fresh n := by
  have hrestamped := h.restamped n hexecuted
  have hpos : 0 < t.after.graph.stampOf n :=
    Nat.zero_lt_of_lt ((hrestamped.stampOf_mono h.before n).1.lt_of_ne hrenewed.symm)
  refine ⟨hpos, fun d hd => ⟨hstamps d hd, hrestamped.stampOf_lt h.before hrenewed ?_⟩⟩
  -- Nothing reads itself.
  rintro rfl
  have hname := mem_names_of_stampOf hpos
  exact h.after.wired.atRest.sound.not_depends_self h.after.wired.atRest.inBatch d ⟨hd, hname, hname⟩

/-! ## Repeated executions -/

/-- Among the steps an equation is executed, later a pass executes it, and in between its text does not
change. -/
structure Repeated (steps : List Step) (n : String) (e : Step) (between : List Step) (e' : Step) :
    Prop where
  exists_eq : ∃ pre post, steps = pre ++ e :: (between ++ e' :: post)
  executed : e.executed = some n
  executed_again : e'.executed = some n
  inPass : e'.inPass = true
  text? : ∀ t ∈ between, t.after.text? n = t.before.text? n

/-- Something that an equation reads is stirred by one of the steps (`Step.stirs`), or is not an equation. -/
def StirredSince (n : String) (e : Step) (between : List Step) : Prop :=
  ∃ d, ⟨n, d⟩ ∈ e.after.graph.edges.toList ∧
    ((∃ t ∈ between, t.stirs d = true) ∨ e.after.equation? d = none)

namespace Repeated

variable {operations : List (Host × SheetOperation)}

/-- The steps in question are orderly and lead from the first execution to the second. -/
theorem orderly (h : Repeated (s.history operations) n e between e') (hs : s.Timed) :
    e.Orderly ∧ e'.Orderly ∧ (∀ t ∈ between, t.Orderly) ∧ Leads e.after between e'.before := by
  have horderly := orderly_history hs operations
  have hleads := leads_history s operations
  obtain ⟨pre, post, hsteps⟩ := h.exists_eq
  rw [hsteps] at horderly hleads
  obtain ⟨-, -, -, hafter⟩ := leads_append.1 hleads
  obtain ⟨s', hbetween, rfl, -⟩ := leads_append.1 hafter
  exact ⟨horderly e (by simp), horderly e' (by simp), fun t ht => horderly t (by simp [ht]), hbetween⟩

/-- The equation that is executed twice is there in between. -/
theorem exists_text? (h : Repeated (s.history operations) n e between e') (hs : s.Timed) :
    ∃ text, e.after.text? n = some text := by
  obtain ⟨-, he', -, hbetween⟩ := h.orderly hs
  have hname := mem_names_of_needsEvaluation (he'.needsEvaluation n h.executed_again h.inPass)
  rw [← hbetween.text?_eq h.text?, ← Option.isSome_iff_exists, isSome_text?]
  exact (he'.before.wired.mem_names n).1 hname

/-- If nothing that the equation reads is stirred, the first execution did not leave it fresh. -/
theorem not_fresh (h : Repeated (s.history operations) n e between e') (hs : s.Timed)
    (hstirs : ∀ d, ⟨n, d⟩ ∈ e.after.graph.edges.toList → ∀ t ∈ between, t.stirs d = false) :
    ¬ e.after.graph.Fresh n := by
  intro hfresh
  obtain ⟨-, he', horderly, hbetween⟩ := h.orderly hs
  obtain ⟨text, htext⟩ := h.exists_text? hs
  have hneeds := he'.needsEvaluation n h.executed_again h.inPass
  have hname := mem_names_of_needsEvaluation hneeds
  have hfresh' := hbetween.fresh horderly htext h.text? hstirs hfresh
  rw [(he'.before.wired.atRest.sound.wellFormed.needsEvaluation_eq_false_iff hname).2 hfresh'] at hneeds
  exact Bool.false_ne_true hneeds

end Repeated

/-! ## Runs at a glance -/

/-- What there is to see of a step, for an equation and the names that it is said to read. -/
structure Glance where
  /-- The equation that is executed. -/
  executed : Option String
  /-- Whether it is executed by a pass. -/
  inPass : Bool
  /-- Whether the equation in question keeps its text. -/
  kept : Bool
  /-- Whether nothing is stirred of what it reads. -/
  still : Bool
  /-- Whether it reads no other names, and all of them are equations. -/
  closed : Bool

/-- See what there is to see of a step. -/
def Step.glance (n : String) (inputs : List String) (t : Step) : Glance where
  executed := t.executed
  inPass := t.inPass
  kept := t.after.text? n == t.before.text? n
  still := inputs.all fun d => !t.stirs d
  closed := (t.after.graph.edges.toList.all fun edge => edge.source != n || edge.target ∈ inputs) &&
    inputs.all fun d => (t.after.equation? d).isSome

section Glance

variable {steps : List Step} {inputs : List String} {seen amid rest : List Glance}
  {first second : Glance}

/-- An equation is executed again if the glances at a run show two executions of it, the second one by a pass,
and in between no change of its text. -/
theorem exists_repeated
    (h : steps.map (Step.glance n inputs) = seen ++ first :: (amid ++ second :: rest))
    (hfirst : first.executed = some n) (hsecond : second.executed = some n)
    (hpass : second.inPass = true) (hkept : amid.all (·.kept) = true) :
    ∃ e between e', Repeated steps n e between e' ∧ e.glance n inputs = first ∧
      between.map (Step.glance n inputs) = amid := by
  obtain ⟨pre, tail, rfl, -, htail⟩ := List.map_eq_append_iff.1 h
  obtain ⟨e, tail, rfl, rfl, hamid⟩ := List.map_eq_cons_iff.1 htail
  obtain ⟨between, tail, rfl, rfl, hrest⟩ := List.map_eq_append_iff.1 hamid
  obtain ⟨e', post, rfl, rfl, -⟩ := List.map_eq_cons_iff.1 hrest
  refine ⟨e, between, e', ⟨⟨pre, post, rfl⟩, hfirst, hsecond, hpass, fun t ht => ?_⟩, rfl, rfl⟩
  rw [List.all_map, List.all_eq_true] at hkept
  exact eq_of_beq (hkept t ht)

/-- Nothing that an equation reads was stirred between two executions if the glances at the run show that it
reads certain equations only and that none of them was stirred. -/
theorem exists_repeated_idle
    (h : steps.map (Step.glance n inputs) = seen ++ first :: (amid ++ second :: rest))
    (hfirst : first.executed = some n) (hsecond : second.executed = some n)
    (hpass : second.inPass = true) (hkept : amid.all (·.kept) = true)
    (hclosed : first.closed = true) (hstill : amid.all (·.still) = true) :
    ∃ e between e', Repeated steps n e between e' ∧ ¬ StirredSince n e between := by
  obtain ⟨e, between, e', hrepeated, rfl, rfl⟩ := exists_repeated h hfirst hsecond hpass hkept
  refine ⟨e, between, e', hrepeated, ?_⟩
  rw [List.all_map, List.all_eq_true] at hstill
  rw [Step.glance, Bool.and_eq_true, List.all_eq_true, List.all_eq_true] at hclosed
  rintro ⟨d, hd, hstirred⟩
  have hinput : d ∈ inputs := by simpa using hclosed.1 ⟨n, d⟩ hd
  rcases hstirred with ⟨t, ht, hstirs⟩ | hnone
  · have hunstirred := List.all_eq_true.1 (hstill t ht) d hinput
    rw [hstirs] at hunstirred
    exact Bool.false_ne_true hunstirred
  · have hsome := hclosed.2 d hinput
    rw [hnone] at hsome
    exact Bool.false_ne_true hsome

end Glance

/-- The steps of a run of operations on a new sheet of sums. -/
def sums (operations : List SheetOperation) : List Step :=
  (create Sum.host {} {}).value.history (operations.map (Sum.host, ·))

/-! ## What was stirred -/

/-- In any run, over any hosts: whenever a pass executes an equation that was executed before and not
edited since, something that it reads was stirred since that execution (`Step.stirs`) or is not an equation.
What is stirred came, went, was edited or had its value changed; this includes a value that the code of a
failing execution left in the store and the sheet took away again (`Step.left`). There are two exceptions:
something that it reads had no stamp then; or the execution left the stamp of the equation as it was, and
the equation had none, or none later than that of something that it reads. -/
theorem stirredSince_of_repeated (host : Host) (options : Options) (store : Store)
    (operations : List (Host × SheetOperation)) (n : String) (e : Step) (between : List Step) (e' : Step)
    (h : Repeated ((create host options store).value.history operations) n e between e') :
    StirredSince n e between ∨
      (∃ d, ⟨n, d⟩ ∈ e.after.graph.edges.toList ∧ e.after.isUnstamped d = true) ∨
      (e.after.graph.stampOf n = e.before.graph.stampOf n ∧ (e.after.isUnstamped n = true ∨
        ∃ d, ⟨n, d⟩ ∈ e.after.graph.edges.toList ∧
          e.after.graph.stampOf n ≤ e.after.graph.stampOf d)) := by
  have hs : (create host options store).value.Timed := (vacant_create host options store).timed
  obtain ⟨he, -, -, -⟩ := h.orderly hs
  by_contra hnot
  rw [not_or, not_or] at hnot
  obtain ⟨hstirred, hunstamped, hown⟩ := hnot
  have hstamps : ∀ d, ⟨n, d⟩ ∈ e.after.graph.edges.toList → 0 < e.after.graph.stampOf d := by
    intro d hd
    refine he.after.wired.stampOf_pos_iff.2 ⟨fun hnone => ?_, ?_⟩
    · exact hstirred ⟨d, hd, Or.inr hnone⟩
    · exact Bool.not_eq_true _ ▸ fun hnever => hunstamped ⟨d, hd, hnever⟩
  refine h.not_fresh hs (fun d hd t ht => ?_) ?_
  · exact Bool.not_eq_true _ ▸ fun hstirs => hstirred ⟨d, hd, Or.inl ⟨t, ht, hstirs⟩⟩
  · by_cases hsame : e.after.graph.stampOf n = e.before.graph.stampOf n
    · have hlater : ∀ d, ⟨n, d⟩ ∈ e.after.graph.edges.toList →
          e.after.graph.stampOf d < e.after.graph.stampOf n := fun d hd =>
        Nat.lt_of_not_le fun hle => hown ⟨hsame, Or.inr ⟨d, hd, hle⟩⟩
      obtain ⟨equation, hequation⟩ := isSome_text?.1 (Option.isSome_iff_exists.2 (h.exists_text? hs))
      refine ⟨he.after.wired.stampOf_pos_iff.2 ⟨?_, ?_⟩, fun d hd => ⟨hstamps d hd, hlater d hd⟩⟩
      · rw [hequation]
        exact Option.some_ne_none equation
      · exact Bool.not_eq_true _ ▸ fun hnever => hown ⟨hsame, Or.inl hnever⟩
    · exact he.fresh_of_renewed h.executed hsame hstamps

/-- An equation is executed, what it reads is edited, and it is executed again. -/
def changed : List SheetOperation :=
  [.addGroup "a=1;b=a", .update .all, .editGroup (.serial 0) "a=2;b=a", .update .all]

/-- In between, what it reads loses its value and gets another one. -/
theorem glance_changed :
    (sums changed).map (Step.glance "b" ["a"]) =
      [⟨none, false, false, false, true⟩, ⟨some "a", true, true, false, true⟩] ++
        ⟨some "b", true, true, true, true⟩ ::
          ([⟨none, false, true, false, true⟩, ⟨some "a", true, true, false, true⟩] ++
            ⟨some "b", true, true, true, true⟩ :: []) := by
  cbv

/-- In the run `changed` the equation `b` is executed again because what it reads was stirred. -/
theorem stirredSince_of_repeated_changed :
    ∃ e between e', Repeated (sums changed) "b" e between e' ∧
      (StirredSince "b" e between ∨
        (∃ d, ⟨"b", d⟩ ∈ e.after.graph.edges.toList ∧ e.after.isUnstamped d = true) ∨
        (e.after.graph.stampOf "b" = e.before.graph.stampOf "b" ∧ (e.after.isUnstamped "b" = true ∨
          ∃ d, ⟨"b", d⟩ ∈ e.after.graph.edges.toList ∧
            e.after.graph.stampOf "b" ≤ e.after.graph.stampOf d))) := by
  obtain ⟨e, between, e', h, -, -⟩ := exists_repeated glance_changed rfl rfl rfl rfl
  exact ⟨e, between, e', h, stirredSince_of_repeated Sum.host {} {} _ "b" e between e' h⟩

/-! ## Idle repetitions -/

/-- Two values change places, so that their sum stays the same; then one of them is executed alone, and
stays the same too. -/
def swapped : List SheetOperation := [.addGroup "a=1;b=2;c=a+b", .update .all,
  .editGroup (.serial 0) "a=2;b=1;c=a+b", .update .all, .updateOnly "a", .update .all]

/-- The sum is executed a second time because of the change of places, and a third time because of it
again. -/
theorem glance_swapped :
    (sums swapped).map (Step.glance "c" ["a", "b"]) =
      [⟨none, false, false, false, true⟩, ⟨some "a", true, true, false, true⟩,
        ⟨some "b", true, true, false, true⟩, ⟨some "c", true, true, true, true⟩,
        ⟨none, false, true, false, true⟩, ⟨some "a", true, true, false, true⟩,
        ⟨some "b", true, true, false, true⟩] ++
        ⟨some "c", true, true, true, true⟩ ::
          ([⟨some "a", false, true, true, true⟩, ⟨none, false, true, true, true⟩,
            ⟨none, false, true, true, true⟩] ++
            ⟨some "c", true, true, true, true⟩ :: []) := by
  cbv

/-- An equation is executed alone before the one that it reads, and that one fails. -/
def hasty : List SheetOperation :=
  [.addGroup "a=x;b=a", .updateOnly "b", .updateOnly "a", .update .all]

/-- Failing gives the one that is read its first stamp, but it has no value before or after. -/
theorem glance_hasty :
    (sums hasty).map (Step.glance "b" ["a"]) =
      [⟨none, false, false, false, true⟩] ++ ⟨some "b", false, true, true, true⟩ ::
        ([⟨some "a", false, true, true, true⟩, ⟨none, false, true, true, true⟩] ++
          ⟨some "b", true, true, true, true⟩ :: []) := by
  cbv

/-- Over a local host, a pass may execute an equation again although since it was last executed nothing
that it reads was stirred, all of it being equations. -/
theorem not_stirredSince_of_repeated :
    Sum.host.Local Sum.reads ∧
      (∃ e between e', Repeated (sums swapped) "c" e between e' ∧ ¬ StirredSince "c" e between) ∧
      ∃ e between e', Repeated (sums hasty) "b" e between e' ∧ ¬ StirredSince "b" e between :=
  ⟨Sum.local_host, exists_repeated_idle glance_swapped rfl rfl rfl rfl rfl rfl,
    exists_repeated_idle glance_hasty rfl rfl rfl rfl rfl rfl⟩

end Sheet

end Recalc
