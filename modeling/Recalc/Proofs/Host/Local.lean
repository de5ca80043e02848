import Mathlib.Data.List.Basic
import Recalc.Proofs.Json.Same
import Recalc.Sheet.Update

/-!
# Local hosts

A host is local if what an equation reads is known from its text, and executing an equation does
nothing but set its own value, as a function of the values that it reads.

An equation is *current* in a store if executing it would change nothing: it succeeds with the value
that is stored, or it fails and nothing is stored. Whether it is, a local host decides by the values
of the names that the equation reads and its own.

Both notions depend on when two values count as the same. An update compares values by `==`, for which
the sign of zero does not count, and this is what is meant where nothing else is said.
-/

namespace Recalc

/-- What the code of an equation is made of: its name, its content and its kind. -/
def Equation.text (e : Equation) : String × String × ItemKind := (e.name, e.content, e.kind)

/-- What the code of an item is made of. -/
def ParseItem.text (i : ParseItem) : String × String × ItemKind := (i.name, i.content, i.kind)

/-- The host reports an item of the text of the equation when it parses some statement. -/
def Equation.Reported (host : Host) (e : Equation) : Prop :=
  ∃ statement items, host.parse .statement statement = .ok items ∧ ∃ i ∈ items, i.text = e.text

/-- Two values, or the lack of one, are the same as an update compares them. -/
def SameValue (v w : Option Json) : Prop := (v == w) = true

/-- The items that the host reports read what their texts say, and executing an equation of such a
text sets its own value or fails, depending only on the values that it reads. Which values count as
the same is a matter of `same`. -/
structure Host.LocalUpTo (same : Option Json → Option Json → Prop) (host : Host)
    (reads : String × String × ItemKind → List String) : Prop where
  dependencies_eq : ∀ statement items, host.parse .statement statement = .ok items →
    ∀ i ∈ items, i.dependencies = reads i.text
  get?_of_success : ∀ e : Equation, e.Reported host → ∀ store,
    (host.exec e.code store).1.isSuccess = true →
      ∃ v, ∀ n, (host.exec e.code store).2.get? n = if n = e.name then some v else store.get? n
  get?_of_failure : ∀ e : Equation, e.Reported host → ∀ store,
    (host.exec e.code store).1.isSuccess = false →
      ∀ n, (host.exec e.code store).2.get? n = store.get? n
  isSuccess_congr : ∀ e : Equation, e.Reported host → ∀ store store',
    (∀ d ∈ reads e.text, same (store.get? d) (store'.get? d)) →
      (host.exec e.code store).1.isSuccess = (host.exec e.code store').1.isSuccess
  value_congr : ∀ e : Equation, e.Reported host → ∀ store store',
    (∀ d ∈ reads e.text, same (store.get? d) (store'.get? d)) →
      (host.exec e.code store).1.isSuccess = true →
        same ((host.exec e.code store).2.get? e.name) ((host.exec e.code store').2.get? e.name)

/-- The host is local, values compared as an update compares them. -/
abbrev Host.Local (host : Host) (reads : String × String × ItemKind → List String) : Prop :=
  host.LocalUpTo SameValue reads

/-- Executing the equation succeeds with the value stored under its name, or it fails and nothing is
stored there. -/
def Equation.CurrentUpTo (same : Option Json → Option Json → Prop) (host : Host) (store : Store)
    (e : Equation) : Prop :=
  ((host.exec e.code store).1.isSuccess = true ∧ ∃ v w,
      (host.exec e.code store).2.get? e.name = some v ∧ store.get? e.name = some w ∧
        same (some v) (some w)) ∨
    ((host.exec e.code store).1.isSuccess = false ∧ store.get? e.name = none)

/-- The equation is current, values compared as an update compares them. -/
abbrev Equation.Current (host : Host) (store : Store) (e : Equation) : Prop :=
  e.CurrentUpTo SameValue host store

namespace SameValue

variable {u v w : Option Json}

theorem refl (v : Option Json) : SameValue v v := BEq.refl v

theorem symm (h : SameValue v w) : SameValue w v := BEq.symm h

theorem trans (huv : SameValue u v) (hvw : SameValue v w) : SameValue u w := BEq.trans huv hvw

/-- No value is the same as none. -/
theorem eq_none (h : SameValue none w) : w = none := by
  cases w with
  | none => rfl
  | some w => cases h

/-- Only a value is the same as a value. -/
theorem exists_some {v : Json} (h : SameValue (some v) w) : ∃ v', w = some v' := by
  cases w with
  | none => cases h
  | some w => exact ⟨w, rfl⟩

end SameValue

namespace Equation

variable {host : Host} {e e' : Equation} {store store' : Store}
  {reads : String × String × ItemKind → List String}

/-- Equations of the same text have the same name. -/
theorem name_eq_of_text (h : e.text = e'.text) : e.name = e'.name := congrArg Prod.fst h

/-- Equations of the same text have the same code. -/
theorem code_eq_of_text (h : e.text = e'.text) : e.code = e'.code := by
  have hname := name_eq_of_text h
  have hcontent : e.content = e'.content := congrArg (fun t => t.2.1) h
  have hkind : e.kind = e'.kind := congrArg (fun t => t.2.2) h
  unfold code
  rw [hname, hcontent, hkind]

/-- Whether an equation is current depends on its text only. -/
theorem Current.of_text (h : e.text = e'.text) (he : e.Current host store) :
    e'.Current host store := by
  unfold Current CurrentUpTo at he ⊢
  rwa [← code_eq_of_text h, ← name_eq_of_text h]

/-- Whether an equation was reported depends on its text only. -/
theorem Reported.of_text (h : e.text = e'.text) (he : e.Reported host) : e'.Reported host := by
  unfold Reported at he ⊢
  rwa [← h]

/-- Where the values that an equation reads and its own are the same, it is current alike. -/
theorem Current.congr (hlocal : host.Local reads) (he : e.Reported host)
    (hreads : ∀ d ∈ reads e.text, SameValue (store.get? d) (store'.get? d))
    (hown : SameValue (store.get? e.name) (store'.get? e.name)) (h : e.Current host store) :
    e.Current host store' := by
  have hstatus := hlocal.isSuccess_congr e he store store' hreads
  rcases h with ⟨hsuccess, v, w, hv, hw, hvw⟩ | ⟨hfailure, hnone⟩
  · have hvalue := hlocal.value_congr e he store store' hreads hsuccess
    rw [hv] at hvalue
    rw [hw] at hown
    obtain ⟨v', hv'⟩ := hvalue.exists_some
    obtain ⟨w', hw'⟩ := hown.exists_some
    rw [hv'] at hvalue
    rw [hw'] at hown
    exact Or.inl ⟨hstatus ▸ hsuccess, v', w', hv', hw', (hvalue.symm.trans hvw).trans hown⟩
  · rw [hnone] at hown
    exact Or.inr ⟨hstatus ▸ hfailure, hown.eq_none⟩

/-- What the store holds once an equation has been executed: the values that it wrote, or, if it failed,
none under its name. -/
def outcomeStore (host : Host) (store : Store) (e : Equation) : Store :=
  if (host.exec e.code store).1.isSuccess then (host.exec e.code store).2
  else ((host.exec e.code store).2.remove e.name).1

/-- Executing an equation leaves the other values alone. -/
theorem get?_outcomeStore_of_ne (hlocal : host.Local reads) (he : e.Reported host) {n : String}
    (hn : n ≠ e.name) : (e.outcomeStore host store).get? n = store.get? n := by
  unfold outcomeStore
  split_ifs with hstatus
  · obtain ⟨v, hv⟩ := hlocal.get?_of_success e he store hstatus
    rw [hv, if_neg hn]
  · have hkeep := hlocal.get?_of_failure e he store (by simpa using hstatus)
    show ((host.exec e.code store).2.values.erase e.name).get? n = _
    rw [OrderedMap.get?_erase, if_neg hn]
    exact hkeep n

/-- An equation that does not read itself is current once it has been executed. -/
theorem current_outcomeStore (hlocal : host.Local reads) (he : e.Reported host)
    (hself : e.name ∉ reads e.text) : e.Current host (e.outcomeStore host store) := by
  have hreads : ∀ d ∈ reads e.text,
      SameValue (store.get? d) ((e.outcomeStore host store).get? d) := by
    intro d hd
    rw [get?_outcomeStore_of_ne hlocal he fun h => hself (h ▸ hd)]
    exact SameValue.refl _
  -- Executed again, it reads the same values and ends in the same way.
  have hstatus := hlocal.isSuccess_congr e he store _ hreads
  cases hsuccess : (host.exec e.code store).1.isSuccess with
  | true =>
    obtain ⟨v, hv⟩ := hlocal.get?_of_success e he store hsuccess
    obtain ⟨w, hw⟩ := hlocal.get?_of_success e he (e.outcomeStore host store) (hstatus ▸ hsuccess)
    have hvalue := hlocal.value_congr e he store _ hreads hsuccess
    have hstored : (e.outcomeStore host store).get? e.name = some v := by
      unfold outcomeStore
      rw [if_pos hsuccess, hv, if_pos rfl]
    rw [hv, hw, if_pos rfl, if_pos rfl] at hvalue
    refine Or.inl ⟨hstatus ▸ hsuccess, w, v, ?_, hstored, hvalue.symm⟩
    rw [hw, if_pos rfl]
  | false =>
    refine Or.inr ⟨hstatus ▸ hsuccess, ?_⟩
    unfold outcomeStore
    rw [hsuccess, if_neg Bool.false_ne_true]
    show ((host.exec e.code store).2.values.erase e.name).get? e.name = none
    rw [OrderedMap.get?_erase, if_pos rfl]

end Equation

/-! ## Hosts that assign -/

/-- Executing the equation gives its name the value that is computed from the store, or fails if there
is none. -/
structure Equation.Assigns (host : Host) (e : Equation) (value : Store → Option Json) : Prop where
  of_some : ∀ store v, value store = some v →
    (host.exec e.code store).1.isSuccess = true ∧ (host.exec e.code store).2 = store.set e.name v
  of_none : ∀ store, value store = none →
    (host.exec e.code store).1.isSuccess = false ∧ (host.exec e.code store).2 = store

namespace Equation.Assigns

variable {host : Host} {e : Equation} {value : Store → Option Json} {store : Store}

/-- An equation that `Assigns` a value succeeds wherever there is one. -/
theorem isSuccess_eq (h : e.Assigns host value) (store : Store) :
    (host.exec e.code store).1.isSuccess = (value store).isSome := by
  cases hvalue : value store with
  | none => exact (h.of_none store hvalue).1
  | some v => exact (h.of_some store v hvalue).1

/-- An equation that `Assigns` a value changes what is stored under its name and nothing else. -/
theorem get?_eq (h : e.Assigns host value) {v : Json} (hvalue : value store = some v) (n : String) :
    (host.exec e.code store).2.get? n = if n = e.name then some v else store.get? n := by
  rw [(h.of_some store v hvalue).2]
  exact OrderedMap.get?_insert _ _ _ _

end Equation.Assigns

/-- A host is local if its equations assign values that are a matter of what they read. -/
theorem Host.localUpTo_of_assigns {same : Option Json → Option Json → Prop} {host : Host}
    {reads : String × String × ItemKind → List String} (hrefl : ∀ v, same v v)
    (hdependencies : ∀ statement items, host.parse .statement statement = .ok items →
      ∀ i ∈ items, i.dependencies = reads i.text)
    (hassigns : ∀ e : Equation, e.Reported host → ∃ value : Store → Option Json,
      e.Assigns host value ∧ ∀ store store',
        (∀ d ∈ reads e.text, same (store.get? d) (store'.get? d)) → value store = value store') :
    host.LocalUpTo same reads where
  dependencies_eq := hdependencies
  get?_of_success := by
    intro e he store hsuccess
    obtain ⟨value, hvalue, -⟩ := hassigns e he
    rw [hvalue.isSuccess_eq] at hsuccess
    obtain ⟨v, hv⟩ := Option.isSome_iff_exists.1 hsuccess
    exact ⟨v, hvalue.get?_eq hv⟩
  get?_of_failure := by
    intro e he store hfailure n
    obtain ⟨value, hvalue, -⟩ := hassigns e he
    rw [hvalue.isSuccess_eq, Option.isSome_eq_false_iff, Option.isNone_iff_eq_none] at hfailure
    rw [(hvalue.of_none store hfailure).2]
  isSuccess_congr := by
    intro e he store store' hreads
    obtain ⟨value, hvalue, hcongr⟩ := hassigns e he
    rw [hvalue.isSuccess_eq, hvalue.isSuccess_eq, hcongr store store' hreads]
  value_congr := by
    intro e he store store' hreads hsuccess
    obtain ⟨value, hvalue, hcongr⟩ := hassigns e he
    rw [hvalue.isSuccess_eq] at hsuccess
    obtain ⟨v, hv⟩ := Option.isSome_iff_exists.1 hsuccess
    have hv' : value store' = some v := (hcongr store store' hreads).symm.trans hv
    rw [hvalue.get?_eq hv, hvalue.get?_eq hv', if_pos rfl, if_pos rfl]
    exact hrefl (some v)

end Recalc
