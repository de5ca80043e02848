import Mathlib.Algebra.Module.Submodule.Lattice
import Mathlib.Computability.TuringMachine.StackTuringMachine
import Mathlib.Data.List.Permutation
import Recalc.Host.Sum
import Recalc.Proofs.Host.Local
import Recalc.Proofs.Text.Cut

/-!
# Sums are local

The host of the language of sums is local: a binding reads the names among the terms of its content, and
executing it gives its name the total of the terms, or fails and gives nothing.

The code of an equation is its name and its content joined again, so the main step is that cutting the
code gives them back (`exec_code`).

Later modules evaluate runs on sheets of sums with `cbv`, which unfolds by equations. Those of `≤`,
`Option.isNone` and `Prod.snd` are the ones of the library, hence the imports.
-/

namespace Recalc.Sum

open Text

variable {store store' : Store}

/-- The names that the content of an equation reads. -/
def reads (text : String × String × ItemKind) : List String := namesRead text.2.1

/-! ## What the host reports -/

/-- The items of a list that is read item by item are read from members of it. -/
theorem exists_of_mem_mapM {α β ε : Type} {f : α → Except ε β} {as : List α} {bs : List β}
    (h : as.mapM f = .ok bs) {b : β} (hb : b ∈ bs) : ∃ a ∈ as, f a = .ok b := by
  induction as generalizing bs with
  | nil =>
    obtain rfl := Except.ok.inj h
    exact absurd hb List.not_mem_nil
  | cons a as ih =>
    rw [List.mapM_cons] at h
    cases hfirst : f a with
    | error e =>
      rw [hfirst] at h
      cases h
    | ok first =>
      cases hrest : as.mapM f with
      | error e =>
        rw [hfirst, hrest] at h
        cases h
      | ok rest =>
        rw [hfirst, hrest] at h
        obtain rfl : first :: rest = bs := Except.ok.inj h
        rcases List.mem_cons.1 hb with rfl | hmem
        · exact ⟨a, List.mem_cons_self, hfirst⟩
        · obtain ⟨a', ha', hf⟩ := ih hrest hmem
          exact ⟨a', List.mem_cons_of_mem a ha', hf⟩

/-- A name that can be bound: it is trimmed and without the sign of a binding. -/
structure Bindable (name : String) : Prop where
  trim_eq : trim name = name
  not_mem : '=' ∉ name.toList

/-- An item is a variable of a bindable name that reads the names in its content. -/
theorem bindable_of_binding {part : String} {item : ParseItem} (h : binding part = .ok item) :
    Bindable item.name ∧ item.kind = .var ∧ item.dependencies = namesRead item.content := by
  unfold binding at h
  cases hcut : cut? '=' part with
  | none =>
    rw [hcut] at h
    cases h
  | some cut =>
    obtain ⟨before, after⟩ := cut
    rw [hcut] at h
    dsimp only at h
    split_ifs at h
    have hitem := (Except.ok.inj h).symm
    have hname : item.name = trim before := congrArg ParseItem.name hitem
    have hcontent : item.content = trim after := congrArg ParseItem.content hitem
    refine ⟨⟨?_, ?_⟩, congrArg ParseItem.kind hitem, ?_⟩
    · rw [hname, trim_trim]
    · rw [hname]
      exact fun hmem => not_mem_of_cut? hcut (mem_of_mem_trim hmem)
    · rw [hcontent, hitem]

/-- The items of a statement are variables of bindable names that read the names in their contents. -/
theorem bindable_of_parse {statement : String} {items : List ParseItem}
    (h : host.parse .statement statement = .ok items) {item : ParseItem} (hitem : item ∈ items) :
    Bindable item.name ∧ item.kind = .var ∧ item.dependencies = namesRead item.content := by
  obtain ⟨part, -, hpart⟩ := exists_of_mem_mapM (f := binding) h hitem
  exact bindable_of_binding hpart

/-- An equation that the host of sums reports is a variable of a bindable name. -/
theorem bindable_of_reported {e : Equation} (h : e.Reported host) :
    Bindable e.name ∧ e.kind = .var := by
  obtain ⟨statement, items, hparse, item, hitem, htext⟩ := h
  obtain ⟨hname, hkind, -⟩ := bindable_of_parse hparse hitem
  have hname' : item.name = e.name := congrArg Prod.fst htext
  have hkind' : item.kind = e.kind := congrArg (fun t => t.2.2) htext
  exact ⟨hname' ▸ hname, hkind' ▸ hkind⟩

/-! ## What executing an equation does -/

/-- A blank in front of a sum makes no difference to its `terms`. -/
theorem terms_cons (cs : List Char) :
    terms (String.ofList (' ' :: cs)) = terms (String.ofList cs) :=
  pieces_cons (by decide) (by decide) cs

/-- Sums of the same terms have the same total. -/
theorem total_congr_terms {sum sum' : String} (h : terms sum = terms sum') (store : Store) :
    total store sum = total store sum' := by
  rw [total, total, h]

/-- Executing the code of an equation gives its name the total of its content. -/
theorem exec_code {e : Equation} (h : e.Reported host) (store : Store) :
    host.exec e.code store =
      match total store e.content with
      | .ok n => (.success (some (.int n)), store.set e.name (.int n))
      | .error failure => (failure, store) := by
  obtain ⟨⟨htrim, hmem⟩, hkind⟩ := bindable_of_reported h
  have hcode : e.code = String.ofList ((e.name.toList ++ [' ']) ++ '=' :: ' ' :: e.content.toList) := by
    rw [Equation.code, hkind, ← String.ofList_toList (s := e.name ++ " = " ++ e.content)]
    simp
  have hblank : '=' ∉ e.name.toList ++ [' '] := by
    rw [List.mem_append, not_or]
    exact ⟨hmem, by decide⟩
  have hname : trim (String.ofList (e.name.toList ++ [' '])) = e.name := by
    rw [trim_concat (by decide), String.ofList_toList, htrim]
  have hterms : terms (String.ofList (' ' :: e.content.toList)) = terms e.content := by
    rw [terms_cons, String.ofList_toList]
  have hcut : cut? '=' e.code =
      some (String.ofList (e.name.toList ++ [' ']), String.ofList (' ' :: e.content.toList)) := by
    rw [hcode, cut?_append hblank]
  show run .exec e.code store = _
  unfold run
  have htotal := total_congr_terms hterms store
  cases hvalue : total store e.content with
  | ok n => simp only [hcut, hname, htotal, hvalue]
  | error failure => simp only [hcut, htotal, hvalue]

/-! ## Which values count -/

/-- No failure of a sum is a success. -/
theorem isSuccess_of_total {sum : String} {failure : Outcome}
    (h : total store sum = .error failure) : failure.isSuccess = false := by
  unfold total at h
  generalize terms sum = ts, (0 : Int) = start at h
  induction ts generalizing start with
  | nil => cases h
  | cons term ts ih =>
    rw [List.foldlM_cons] at h
    -- A term fails with an error of its own, and every sum that does not fit fails in the same way.
    have hterm : ∀ f, termValue store term = .error f → f.isSuccess = false := by
      intro f hf
      unfold termValue at hf
      split at hf
      · cases hf
      · split at hf
        · split_ifs at hf
          obtain rfl := Except.error.inj hf
          rfl
        · obtain rfl := Except.error.inj hf
          rfl
        · obtain rfl := Except.error.inj hf
          rfl
        · obtain rfl := Except.error.inj hf
          rfl
    cases hvalue : termValue store term with
    | error f =>
      rw [hvalue] at h
      obtain rfl : f = failure := Except.error.inj h
      exact hterm f hvalue
    | ok m =>
      rw [hvalue] at h
      by_cases hfits : fits64 (start + m) = true
      · refine ih (start + m) ?_
        simpa [bind, Except.bind, hfits] using h
      · have hoverflow : Outcome.failure .overflowError "integer overflow" = failure := by
          simpa [bind, Except.bind, hfits] using h
        rw [← hoverflow]
        rfl

/-- The value of a term is a matter of the value stored under it, if the term is a name, and of nothing
else. -/
theorem toOption_termValue_congr {term : String}
    (h : isName term = true → SameValue (store.get? term) (store'.get? term)) :
    (termValue store term).toOption = (termValue store' term).toOption := by
  unfold termValue
  cases hint : integer? term with
  | some n => rfl
  | none =>
    have hsame := h (by rw [isName, hint]; rfl)
    cases hv : store.get? term with
    | none =>
      rw [hv] at hsame
      rw [hsame.eq_none]
    | some v =>
      rw [hv] at hsame
      obtain ⟨w, hw⟩ := hsame.exists_some
      rw [hw] at hsame ⊢
      -- Only integers of the same value are the same as an integer.
      have hvw : v.same w = true := hsame
      cases v <;> cases w <;> simp_all [Json.same, Except.toOption]

/-- The total is a matter of the values of the names read. -/
theorem toOption_total_congr (sum : String)
    (h : ∀ d ∈ namesRead sum, SameValue (store.get? d) (store'.get? d)) :
    (total store sum).toOption = (total store' sum).toOption := by
  have hterms : ∀ term ∈ terms sum,
      (termValue store term).toOption = (termValue store' term).toOption := by
    intro term hterm
    refine toOption_termValue_congr fun hname => h term ?_
    exact OrderedSet.mem_ofList.2 (List.mem_filter.2 ⟨hterm, hname⟩)
  unfold total
  generalize terms sum = ts at hterms ⊢
  generalize (0 : Int) = start
  induction ts generalizing start with
  | nil => rfl
  | cons term ts ih =>
    have hfirst := hterms term List.mem_cons_self
    have hrest := fun t ht => hterms t (List.mem_cons_of_mem term ht)
    rw [List.foldlM_cons, List.foldlM_cons]
    -- The first term has a value in both stores or in neither.
    cases hv : termValue store term <;> cases hw : termValue store' term
    · rfl
    · rw [hv, hw] at hfirst
      cases hfirst
    · rw [hv, hw] at hfirst
      cases hfirst
    · rw [hv, hw] at hfirst
      obtain rfl := Option.some.inj hfirst
      simp only [bind, Except.bind]
      split_ifs
      · exact ih hrest _
      · rfl

/-- An equation assigns the total of its content. -/
theorem assigns_total {e : Equation} (he : e.Reported host) :
    e.Assigns host fun store => (total store e.content).toOption.map .int where
  of_some := by
    intro store v hv
    rw [exec_code he]
    cases htotal : total store e.content with
    | ok n =>
      rw [htotal] at hv
      obtain rfl : Json.int n = v := Option.some.inj hv
      exact ⟨rfl, rfl⟩
    | error failure =>
      rw [htotal] at hv
      cases hv
  of_none := by
    intro store hnone
    rw [exec_code he]
    cases htotal : total store e.content with
    | ok n =>
      rw [htotal] at hnone
      cases hnone
    | error failure => exact ⟨isSuccess_of_total htotal, rfl⟩

/-- The host of the language of sums is local. -/
theorem local_host : host.Local reads := by
  refine Host.localUpTo_of_assigns SameValue.refl (fun _ _ hparse _ hitem => ?_) fun e he => ?_
  · exact (bindable_of_parse hparse hitem).2.2
  · refine ⟨_, assigns_total he, fun store store' hreads => ?_⟩
    exact congrArg (Option.map Json.int) (toOption_total_congr e.content hreads)

end Recalc.Sum
