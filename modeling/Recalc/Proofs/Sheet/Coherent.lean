import Recalc.Proofs.Graph.Order
import Recalc.Proofs.Sheet.Tables

/-!
# Coherent sheets

The invariant behind incremental updates, for a local host. A sheet is `Linked` if its graph has one
node for each equation, with the edges that the text of the equation asks for. It is current outside
some stale names (`CurrentOutside`) if the equations that are not stale are current, and so are those
that an update would skip because they are fresh; whatever depends on a stale name is stale. A sheet is
`Coherent` if it is current outside its dirty names.

The stale names are kept apart from the dirty flags, because an update clears the flag of an equation
before it executes it.
-/

namespace Recalc.Sheet

open Recalc.Graph Relation

variable {host : Host} {reads : String × String × ItemKind → List String} {s s' : Sheet}
  {stale stale' : String → Prop}

/-! ## Sheets whose graph repeats the equations -/

/-- The tables agree, and the nodes of the graph are the names of the equations. -/
structure Wired (s : Sheet) : Prop where
  atRest : s.AtRest
  booked : s.Booked
  mem_names : ∀ n, n ∈ s.graph.names ↔ ∃ e, s.equation? n = some e

/-- A name without an equation has no node. -/
theorem Wired.not_mem_names (h : s.Wired) {n : String} (hn : s.hasEquation n = false) :
    n ∉ s.graph.names := by
  rw [h.mem_names, ← h.booked.hasEquation_iff, hn]
  exact Bool.false_ne_true

/-- Each equation has a node and the edges that its text asks for, and the host reports its text. -/
structure Linked (host : Host) (reads : String × String × ItemKind → List String) (s : Sheet) :
    Prop where
  atRest : s.AtRest
  booked : s.Booked
  mem_names : ∀ n, n ∈ s.graph.names ↔ ∃ e, s.equation? n = some e
  reported : ∀ n e, s.equation? n = some e → e.Reported host
  mem_edges : ∀ n e, s.equation? n = some e → ∀ d,
    ⟨n, d⟩ ∈ s.graph.edges.toList ↔ d ∈ reads e.text

/-- There is a text exactly where there is an equation. -/
theorem isSome_text? {n : String} : (s.text? n).isSome = true ↔ ∃ e, s.equation? n = some e := by
  rw [text?, Option.isSome_map, Option.isSome_iff_exists]

/-- Sheets with the same text for a name have equations of that text for it. -/
theorem equation?_of_text? {n : String} (htext : s'.text? n = s.text? n) {e' : Equation}
    (he' : s'.equation? n = some e') : ∃ e, s.equation? n = some e ∧ e.text = e'.text := by
  rw [text?, text?, he'] at htext
  exact Option.map_eq_some_iff.1 htext.symm

/-- The sheets have the same nodes and edges, and equations of the same texts. -/
structure SameLinks (s' s : Sheet) : Prop where
  atRest : s'.AtRest
  booked : s'.Booked
  names : s'.graph.names = s.graph.names
  mem_edges : ∀ e, e ∈ s'.graph.edges.toList ↔ e ∈ s.graph.edges.toList
  text? : ∀ n, s'.text? n = s.text? n

/-- A calm change that keeps the books and the texts keeps the links. -/
theorem SameLinks.of_calm (hs : s.AtRest) (hcalm : Calm s' s) (hbooked : s'.Booked)
    (htext : ∀ n, s'.text? n = s.text? n) : SameLinks s' s :=
  ⟨hs.of_calm hcalm, hbooked, hcalm.graph.names, fun _ => by rw [hcalm.graph.edges], htext⟩

/-- Being `Wired` is a matter of the nodes and of which names have a text. -/
theorem Wired.of_sameLinks (h : s.Wired) (hsame : SameLinks s' s) : s'.Wired where
  atRest := hsame.atRest
  booked := hsame.booked
  mem_names := by
    intro n
    rw [hsame.names, h.mem_names, ← isSome_text?, ← isSome_text?, hsame.text?]

namespace Linked

/-- A sheet that is `Linked` is `Wired`. -/
theorem wired (h : Linked host reads s) : s.Wired := ⟨h.atRest, h.booked, h.mem_names⟩

/-- Being `Linked` is a matter of the nodes, the edges and the texts. -/
theorem of_sameLinks (h : Linked host reads s) (hsame : SameLinks s' s) : Linked host reads s' where
  atRest := hsame.atRest
  booked := hsame.booked
  mem_names := (h.wired.of_sameLinks hsame).mem_names
  reported := by
    intro n e he
    obtain ⟨e', he', heq⟩ := equation?_of_text? (hsame.text? n) he
    exact (h.reported n e' he').of_text heq
  mem_edges := by
    intro n e he d
    obtain ⟨e', he', heq⟩ := equation?_of_text? (hsame.text? n) he
    rw [hsame.mem_edges, ← heq]
    exact h.mem_edges n e' he' d

/-- What an equation reads it depends on, if it exists. -/
theorem depends (h : Linked host reads s) {n d : String} {e : Equation}
    (he : s.equation? n = some e) (hd : d ∈ reads e.text) (hname : d ∈ s.graph.names) :
    s.graph.Depends n d :=
  ⟨(h.mem_edges n e he d).2 hd, (h.mem_names n).2 ⟨e, he⟩, hname⟩

/-- No equation reads itself. -/
theorem not_mem_reads (h : Linked host reads s) {n : String} {e : Equation}
    (he : s.equation? n = some e) : n ∉ reads e.text := fun hmem =>
  h.atRest.sound.not_depends_self h.atRest.inBatch n
    (h.depends he hmem ((h.mem_names n).2 ⟨e, he⟩))

end Linked

/-! ## Executing an equation -/

/-- What executing an equation leaves: the value it computes, and a fresh stamp unless that is the
value stored before. -/
structure Executed (host : Host) (s : Sheet) (n : String) (e : Equation) (s' : Sheet) : Prop where
  booked : s'.Booked
  text? : ∀ m, s'.text? m = s.text? m
  store : s'.store = e.outcomeStore host s.store
  graph : (s'.graph = s.graph ∧ SameValue (s.store.get? n) (s'.store.get? n)) ∨
    s'.graph = (s.graph.touch n).1

/-- A successful evaluation leaves the store of the host, and the node is stamped if its value is another one.
-/
theorem conclude_of_success {n : String} {outcome : Outcome} {after : Store}
    (h : outcome.isSuccess = true) :
    s.conclude n outcome after =
      ({ s with
          store := after
          graph := if (after.get? n != s.store.get? n) = true then (s.graph.touch n).1
            else s.graph } : Sheet).setResult n outcome.status outcome.message := by
  unfold conclude
  rw [if_pos h]

/-- A failed evaluation takes the value of the name away, and the node is stamped if there was one to take
or if it never had a stamp. -/
theorem conclude_of_failure {n : String} {outcome : Outcome} {after : Store}
    (h : outcome.isSuccess = false) :
    s.conclude n outcome after =
      ({ s with
          store := (after.remove n).1
          graph := if ((after.remove n).2 || s.isUnstamped n) = true then (s.graph.touch n).1
            else s.graph } : Sheet).setResult n outcome.status outcome.message := by
  unfold conclude
  rw [if_neg (Bool.not_eq_true _ ▸ h)]

/-- Setting the store and the graph and how an evaluation ended keeps the books and the texts. -/
theorem Booked.setResult_with (hs : s.Booked) (store : Store) (graph : Graph) (n : String)
    (status : Status) (message : String) :
    (({ s with store, graph } : Sheet).setResult n status message).Booked ∧
      ∀ m, (({ s with store, graph } : Sheet).setResult n status message).text? m = s.text? m := by
  have hbooked : ({ s with store, graph } : Sheet).Booked := hs.of_tables rfl rfl rfl
  exact ⟨hbooked.modifyEquation n fun _ => rfl, text?_setResult _ n status message⟩

/-- For a host that is `Host.Local`, evaluating an equation of a `Linked` sheet executes it. -/
theorem Linked.executed (hlocal : host.Local reads) (h : Linked host reads s) {n : String}
    {e : Equation} (he : s.equation? n = some e) :
    Executed host s n e (s.evaluate host n).value := by
  have hname : e.name = n := h.booked.name_eq_of_equation? he
  have hvalue : (s.evaluate host n).value =
      s.conclude n (host.exec e.code s.store).1 (host.exec e.code s.store).2 := by
    rw [value_evaluate, he]
  rw [hvalue]
  set outcome := (host.exec e.code s.store).1 with houtcome
  set after := (host.exec e.code s.store).2 with hafter
  cases hstatus : outcome.isSuccess with
  | true =>
    rw [conclude_of_success hstatus]
    obtain ⟨hbooked, htext⟩ := h.booked.setResult_with after _ n outcome.status outcome.message
    have hsame := sameOutside_setResult { s with store := after, graph := if (after.get? n !=
      s.store.get? n) = true then (s.graph.touch n).1 else s.graph } n outcome.status outcome.message
    refine ⟨hbooked, htext, ?_, ?_⟩
    · rw [hsame.store, Equation.outcomeStore, if_pos hstatus]
    · rw [hsame.graph, hsame.store]
      by_cases hchanged : (after.get? n != s.store.get? n) = true
      · exact Or.inr (if_pos hchanged)
      · refine Or.inl ⟨if_neg hchanged, SameValue.symm ?_⟩
        simpa [bne, SameValue] using hchanged
  | false =>
    rw [conclude_of_failure hstatus]
    obtain ⟨hbooked, htext⟩ := h.booked.setResult_with (after.remove n).1 _ n outcome.status
      outcome.message
    have hsame := sameOutside_setResult { s with store := (after.remove n).1, graph :=
      if ((after.remove n).2 || s.isUnstamped n) = true then (s.graph.touch n).1 else s.graph } n
      outcome.status outcome.message
    refine ⟨hbooked, htext, ?_, ?_⟩
    · rw [hsame.store, Equation.outcomeStore, ← houtcome, hstatus, hname]
      rfl
    · rw [hsame.graph, hsame.store]
      by_cases hchanged : ((after.remove n).2 || s.isUnstamped n) = true
      · exact Or.inr (if_pos hchanged)
      · -- There was no value to take away.
        have habsent : after.get? n = none := by
          rw [Bool.or_eq_true, not_or] at hchanged
          have hcontains : ¬ after.values.contains n = true := hchanged.1
          rwa [OrderedMap.contains_eq_true, ← OrderedMap.get?_eq_none] at hcontains
        have hbefore : s.store.get? n = none :=
          (hlocal.get?_of_failure e (h.reported n e he) s.store hstatus n).symm.trans habsent
        have hafterwards : (after.remove n).1.get? n = none := by
          simp [Store.remove, Store.get?]
        refine Or.inl ⟨if_neg hchanged, ?_⟩
        show SameValue (s.store.get? n) ((after.remove n).1.get? n)
        rw [hbefore, hafterwards]
        exact SameValue.refl none

namespace Executed

variable {n : String} {e : Equation}

/-- Executing an equation makes it current. -/
theorem current (hexec : Executed host s n e s') (hlocal : host.Local reads)
    (h : Linked host reads s) (he : s.equation? n = some e) {e' : Equation}
    (he' : s'.equation? n = some e') : e'.Current host s'.store := by
  obtain ⟨e'', he'', heq⟩ := equation?_of_text? (hexec.text? n) he'
  rw [he] at he''
  obtain rfl := Option.some.inj he''
  have hname : e.name = n := h.booked.name_eq_of_equation? he
  rw [hexec.store]
  refine (Equation.current_outcomeStore hlocal (h.reported n e he) ?_).of_text heq
  rw [hname]
  exact h.not_mem_reads he

/-- Another equation stays current if it does not notice the new value. -/
theorem current_of_ne (hexec : Executed host s n e s') (hlocal : host.Local reads)
    (h : Linked host reads s) (he : s.equation? n = some e) {m : String} (hm : m ≠ n)
    {e' : Equation} (he' : s.equation? m = some e')
    (hread : n ∈ reads e'.text → SameValue (s.store.get? n) (s'.store.get? n))
    (hcurrent : e'.Current host s.store) : e'.Current host s'.store := by
  have hname : e.name = n := h.booked.name_eq_of_equation? he
  have hother : ∀ d, d ≠ n → s'.store.get? d = s.store.get? d := fun d hd => by
    rw [hexec.store]
    exact Equation.get?_outcomeStore_of_ne hlocal (h.reported n e he) (hname ▸ hd)
  -- All that it reads is the same as before, and so is its own value.
  refine hcurrent.congr hlocal (h.reported m e' he') (fun d hd => ?_) ?_
  · by_cases hdn : d = n
    · subst hdn
      exact hread hd
    · rw [hother d hdn]
      exact SameValue.refl _
  · rw [h.booked.name_eq_of_equation? he', hother m hm]
    exact SameValue.refl _

/-- What was fresh before and does not read a name that was stamped is what is fresh afterwards. -/
theorem fresh_of_touch (hgraph : s'.graph = (s.graph.touch n).1) (hn : n ∈ s.graph.names)
    (hle : ∀ m, s.graph.stampOf m ≤ s.graph.clock.last) {m : String} (hm : m ≠ n)
    (hfresh : s'.graph.Fresh m) :
    ⟨m, n⟩ ∉ s.graph.edges.toList ∧ s.graph.Fresh m := by
  rw [Fresh, hgraph, (sameShape_touch s.graph n).edges, stampOf_touch_of_ne hm] at hfresh
  have hedge : ⟨m, n⟩ ∉ s.graph.edges.toList := by
    intro hedge
    have hlt := (hfresh.2 n hedge).2
    -- The new stamp is later than every other one.
    rw [stampOf_touch hn] at hlt
    exact absurd hlt (Nat.not_lt.2 ((hle m).trans (Nat.le_succ _)))
  refine ⟨hedge, hfresh.1, fun d hd => ?_⟩
  have hdn : d ≠ n := by
    rintro rfl
    exact hedge hd
  have hstamps := hfresh.2 d hd
  rwa [stampOf_touch_of_ne hdn] at hstamps

end Executed

/-! ## Sheets that are current outside stale names -/

/-- Equations that are not stale, or that are fresh, are current, and staleness spreads along
dependencies. -/
structure CurrentOutside (host : Host) (reads : String × String × ItemKind → List String)
    (stale : String → Prop) (s : Sheet) : Prop where
  linked : Linked host reads s
  stale_of_depends : ∀ n d, s.graph.Depends n d → stale d → stale n
  current_of_not_stale : ∀ n e, s.equation? n = some e → ¬ stale n → e.Current host s.store
  current_of_fresh : ∀ n e, s.equation? n = some e → s.graph.Fresh n → e.Current host s.store
  stampOf_le : ∀ n, s.graph.stampOf n ≤ s.graph.clock.last

/-- The equations that are not dirty are current. -/
abbrev Coherent (host : Host) (reads : String × String × ItemKind → List String) (s : Sheet) : Prop :=
  CurrentOutside host reads (fun n => s.isDirty n = true) s

namespace CurrentOutside

/-- More names may be taken for stale, if whatever depends on one of them is among them. -/
theorem mono (h : CurrentOutside host reads stale s) (hsub : ∀ n, stale n → stale' n)
    (hclosed : ∀ n d, s.graph.Depends n d → stale' d → stale' n) :
    CurrentOutside host reads stale' s :=
  ⟨h.linked, hclosed, fun n e he hn => h.current_of_not_stale n e he fun hs => hn (hsub n hs),
    h.current_of_fresh, h.stampOf_le⟩

/-- Being current outside some names depends only on which names they are. -/
theorem congr (h : CurrentOutside host reads stale s) (hiff : ∀ n, stale n ↔ stale' n) :
    CurrentOutside host reads stale' s :=
  h.mono (fun n => (hiff n).1) fun n d hnd hd =>
    (hiff n).1 (h.stale_of_depends n d hnd ((hiff d).2 hd))

/-- An equation that is current and depends on nothing stale is not stale. -/
theorem remove (h : CurrentOutside host reads stale s) {name : String}
    (hcurrent : ∀ e, s.equation? name = some e → e.Current host s.store)
    (hclean : ∀ d, s.graph.Depends name d → ¬ stale d) :
    CurrentOutside host reads (fun n => stale n ∧ n ≠ name) s where
  linked := h.linked
  stale_of_depends := by
    intro n d hnd hd
    refine ⟨h.stale_of_depends n d hnd hd.1, ?_⟩
    rintro rfl
    exact hclean d hnd hd.1
  current_of_not_stale := by
    intro n e he hn
    by_cases hname : n = name
    · subst hname
      exact hcurrent e he
    · exact h.current_of_not_stale n e he fun hstale => hn ⟨hstale, hname⟩
  current_of_fresh := h.current_of_fresh
  stampOf_le := h.stampOf_le

/-- Which equations are current is a matter of the links, the values and the stamps. -/
theorem of_sameLinks (h : CurrentOutside host reads stale s) (hsame : SameLinks s' s)
    (hstore : s'.store = s.store) (hstamp : ∀ n, s'.graph.stampOf n = s.graph.stampOf n)
    (hclock : s'.graph.clock = s.graph.clock) : CurrentOutside host reads stale s' where
  linked := h.linked.of_sameLinks hsame
  stale_of_depends := by
    intro n d hnd
    rw [Depends, DependsIn, hsame.mem_edges, hsame.names] at hnd
    exact h.stale_of_depends n d hnd
  current_of_not_stale := by
    intro n e he hn
    obtain ⟨e', he', heq⟩ := equation?_of_text? (hsame.text? n) he
    rw [hstore]
    exact (h.current_of_not_stale n e' he' hn).of_text heq
  current_of_fresh := by
    intro n e he hfresh
    obtain ⟨e', he', heq⟩ := equation?_of_text? (hsame.text? n) he
    have hold : s.graph.Fresh n := by
      unfold Fresh at hfresh ⊢
      simpa only [hstamp, hsame.mem_edges] using hfresh
    rw [hstore]
    exact (h.current_of_fresh n e' he' hold).of_text heq
  stampOf_le := by
    intro n
    rw [hstamp, hclock]
    exact h.stampOf_le n

/-- Setting how an evaluation ended makes no equation stale. -/
theorem setResult (h : CurrentOutside host reads stale s) (name : String) (status : Status)
    (message : String) : CurrentOutside host reads stale (s.setResult name status message) := by
  have hsame := sameOutside_setResult s name status message
  have hlinks : SameLinks (s.setResult name status message) s :=
    SameLinks.of_calm h.linked.atRest (Calm.of_sameOutside hsame)
      (h.linked.booked.modifyEquation name fun _ => rfl) (text?_setResult s name status message)
  refine h.of_sameLinks hlinks hsame.store (fun n => ?_) ?_
  · rw [hsame.graph]
  · rw [hsame.graph]

/-- Changing dirty flags makes no equation stale. -/
theorem withFlags (h : CurrentOutside host reads stale s) {graph : Graph}
    (hshape : SameShape graph s.graph) (hstamp : ∀ n, graph.stampOf n = s.graph.stampOf n)
    (hclock : graph.clock = s.graph.clock) : CurrentOutside host reads stale { s with graph } := by
  have hbooked : ({ s with graph } : Sheet).Booked := h.linked.booked.of_tables rfl rfl rfl
  exact h.of_sameLinks (SameLinks.of_calm h.linked.atRest ⟨hshape, rfl⟩ hbooked fun _ => rfl) rfl
    hstamp hclock

/-- Executing a stale equation makes no other equation stale: what reads it is stale already, and is
fresh afterwards only if its value is the same as before. -/
theorem evaluate (hlocal : host.Local reads) (h : CurrentOutside host reads stale s) {name : String}
    (hstale : stale name) : CurrentOutside host reads stale (s.evaluate host name).value := by
  cases he : s.equation? name with
  | none =>
    rw [value_evaluate, he]
    exact h
  | some e =>
    have hexec := h.linked.executed hlocal he
    have hcalm := calm_evaluate host s name
    have hmem : name ∈ s.graph.names := (h.linked.mem_names name).2 ⟨e, he⟩
    set s' := (s.evaluate host name).value
    have hlinks := SameLinks.of_calm h.linked.atRest hcalm hexec.booked hexec.text?
    refine ⟨h.linked.of_sameLinks hlinks, ?_, ?_, ?_, ?_⟩
    · intro n d hnd
      exact h.stale_of_depends n d ((hcalm.graph.depends_iff n d).1 hnd)
    · intro n e'' he'' hn
      obtain ⟨e', he', heq⟩ := equation?_of_text? (hexec.text? n) he''
      have hne : n ≠ name := fun hne => hn (hne ▸ hstale)
      -- It cannot read the stale equation, or it would be stale as well.
      have hread : name ∉ reads e'.text := fun hread =>
        hn (h.stale_of_depends n name (h.linked.depends he' hread hmem) hstale)
      exact (hexec.current_of_ne hlocal h.linked he hne he' (fun hr => absurd hr hread)
        (h.current_of_not_stale n e' he' hn)).of_text heq
    · intro n e'' he'' hfresh
      by_cases hn : n = name
      · subst hn
        exact hexec.current hlocal h.linked he he''
      · obtain ⟨e', he', heq⟩ := equation?_of_text? (hexec.text? n) he''
        refine Equation.Current.of_text heq ?_
        -- Without a new stamp the value is the same; with one, no reader is fresh any more.
        rcases hexec.graph with ⟨hgraph, hvalue⟩ | hgraph
        · rw [hgraph] at hfresh
          exact hexec.current_of_ne hlocal h.linked he hn he' (fun _ => hvalue)
            (h.current_of_fresh n e' he' hfresh)
        · obtain ⟨hedge, hold⟩ := Executed.fresh_of_touch hgraph hmem h.stampOf_le hn hfresh
          rw [h.linked.mem_edges n e' he' name] at hedge
          exact hexec.current_of_ne hlocal h.linked he hn he' (fun hr => absurd hr hedge)
            (h.current_of_fresh n e' he' hold)
    · intro n
      rcases hexec.graph with ⟨hgraph, -⟩ | hgraph
      · rw [hgraph]
        exact h.stampOf_le n
      · rw [hgraph, clock_touch, if_pos hmem]
        by_cases hn : n = name
        · rw [hn, stampOf_touch hmem]
        · rw [stampOf_touch_of_ne hn]
          exact (h.stampOf_le n).trans (Nat.le_succ _)

end CurrentOutside

end Recalc.Sheet
