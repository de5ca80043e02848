import Recalc.Proofs.Sheet.Atomicity
import Recalc.Proofs.Sheet.Coherent

/-!
# Structural edits keep a sheet coherent

An edit rewires the graph, changes the equations accordingly and marks what it touched (`Edited`). What
keeps its node keeps its mark, its edges and its value; what is new has no stamp, so nothing that reads
it is fresh; and what reads a name that came, went or changed is marked. So the sheet is coherent
again, whatever the edit was (`CurrentOutside.edited`).
-/

namespace Recalc

namespace Graph

variable {g g' : Graph} {detached : List String} {attached : List ParseItem} {n d : String}

namespace Rewired

/-- A node with a mark of its own is one that was kept. -/
theorem kept_of_mark? (h : Rewired g detached attached g')
    (hfresh : ∀ n ∈ attached.map (·.name), n ∈ detached ∨ n ∉ g.names) (hn : n ∈ g'.names)
    (hmark : g'.mark? n ≠ some (false, Stamp.never)) :
    n ∈ g.names ∧ n ∉ detached ∧ n ∉ attached.map (·.name) := by
  have hattached : n ∉ attached.map (·.name) := fun hmem =>
    hmark (h.mark?_of_fresh n hmem (hfresh n hmem))
  obtain ⟨hname, hdetached⟩ := ((h.mem_names n).1 hn).resolve_right hattached
  exact ⟨hname, hdetached, hattached⟩

/-- A dirty node was kept. -/
theorem kept_of_isDirty (h : Rewired g detached attached g')
    (hfresh : ∀ n ∈ attached.map (·.name), n ∈ detached ∨ n ∉ g.names)
    (hdirty : g'.isDirty n = true) :
    g.isDirty n = true ∧ n ∈ g.names ∧ n ∉ attached.map (·.name) := by
  have hkept := h.kept_of_mark? hfresh (mem_names_of_isDirty hdirty) fun hmark => by
    rw [isDirty, hmark] at hdirty
    cases hdirty
  rw [isDirty_congr (h.mark?_of_kept n hkept.2.1 hkept.2.2)] at hdirty
  exact ⟨hdirty, hkept.1, hkept.2.2⟩

/-- A node with a stamp was kept. -/
theorem kept_of_stampOf (h : Rewired g detached attached g')
    (hfresh : ∀ n ∈ attached.map (·.name), n ∈ detached ∨ n ∉ g.names)
    (hstamp : 0 < g'.stampOf n) :
    g'.stampOf n = g.stampOf n ∧ n ∉ detached ∧ n ∉ attached.map (·.name) := by
  have hkept := h.kept_of_mark? hfresh (mem_names_of_stampOf hstamp) fun hmark => by
    rw [stampOf, hmark] at hstamp
    exact absurd hstamp (lt_irrefl 0)
  exact ⟨stampOf_congr (h.mark?_of_kept n hkept.2.1 hkept.2.2), hkept.2⟩

/-- A name that is not attached has the edges that it had. -/
theorem mem_edges_of_kept (h : Rewired g detached attached g') (hdetached : n ∉ detached)
    (hattached : n ∉ attached.map (·.name)) :
    ⟨n, d⟩ ∈ g'.edges.toList ↔ ⟨n, d⟩ ∈ g.edges.toList := by
  rw [h.mem_edges]
  constructor
  · rintro (hold | ⟨item, hitem, hedge⟩)
    · exact hold.1
    · exact absurd (List.mem_map.2 ⟨item, hitem, (mem_itemEdges.1 hedge).1.symm⟩) hattached
  · intro hold
    exact Or.inl ⟨hold, hdetached, hattached⟩

/-- A name that is gone has no edges. -/
theorem not_mem_edges_of_gone (h : Rewired g detached attached g') (hdetached : n ∈ detached)
    (hattached : n ∉ attached.map (·.name)) : ⟨n, d⟩ ∉ g'.edges.toList := by
  rw [h.mem_edges]
  rintro (hold | ⟨item, hitem, hedge⟩)
  · exact hold.2.1 hdetached
  · exact hattached (List.mem_map.2 ⟨item, hitem, (mem_itemEdges.1 hedge).1.symm⟩)

/-- An item that is attached has the edges that it declares. -/
theorem mem_edges_of_attached (h : Rewired g detached attached g')
    (hnodup : (attached.map (·.name)).Nodup) {item : ParseItem} (hitem : item ∈ attached) :
    ⟨item.name, d⟩ ∈ g'.edges.toList ↔ d ∈ item.dependencies := by
  rw [h.mem_edges]
  constructor
  · rintro (hold | ⟨item', hitem', hedge⟩)
    · exact absurd (List.mem_map_of_mem hitem) hold.2.2
    · obtain ⟨hname, hmem⟩ := mem_itemEdges.1 hedge
      rwa [List.inj_on_of_nodup_map hnodup hitem hitem' hname]
  · intro hmem
    exact Or.inr ⟨item, hitem, mem_itemEdges.2 ⟨rfl, hmem⟩⟩

end Rewired

end Graph

namespace Sheet

open Recalc.Graph Relation

variable {host : Host} {reads : String × String × ItemKind → List String} {s s' : Sheet}
  {detached seeds : List String} {attached : List ParseItem} {graph : Graph}

/-- What an edit leaves of a sheet whose graph was rewired: the equations are those kept and those
attached, what was detached has lost its value and all other values are as they were, and the seeds of
the marks include what was attached and what reads a name that is gone. -/
structure Edited (s : Sheet) (graph : Graph) (detached : List String) (attached : List ParseItem)
    (seeds : List String) (s' : Sheet) : Prop where
  rewired : Rewired s.graph detached attached graph
  booked : s'.Booked
  options : s'.options = s.options
  equation?_of_kept : ∀ n, n ∉ detached → n ∉ attached.map (·.name) → s'.equation? n = s.equation? n
  text?_of_gone : ∀ n ∈ detached, n ∉ attached.map (·.name) → s'.text? n = none
  text?_of_attached : ∀ item ∈ attached, s'.text? item.name = some item.text
  store_of_detached : ∀ n ∈ detached, s'.store.get? n = none
  store : ∀ n, n ∉ detached → s'.store.get? n = s.store.get? n
  marked : Marked graph seeds s'.graph
  mem_seeds_of_attached : ∀ n ∈ attached.map (·.name), n ∈ seeds
  mem_seeds_of_gone : ∀ n d, ⟨n, d⟩ ∈ graph.edges.toList → d ∈ detached →
    d ∉ attached.map (·.name) → n ∈ seeds

/-- The items are what the host reports of a statement, each name once, and only new or detached names
are attached. -/
structure Attachable (host : Host) (reads : String × String × ItemKind → List String) (s : Sheet)
    (detached : List String) (attached : List ParseItem) : Prop where
  nodup : (attached.map (·.name)).Nodup
  fresh : ∀ n ∈ attached.map (·.name), n ∈ detached ∨ n ∉ s.graph.names
  dependencies_eq : ∀ item ∈ attached, item.dependencies = reads item.text
  reported : ∀ item ∈ attached, ∀ e : Equation, e.text = item.text → e.Reported host

namespace Edited

/-- An edit keeps the text of a name that it neither detaches nor attaches. -/
theorem text?_of_kept (h : Edited s graph detached attached seeds s') (n : String)
    (hdetached : n ∉ detached) (hattached : n ∉ attached.map (·.name)) : s'.text? n = s.text? n :=
  congrArg (Option.map Equation.text) (h.equation?_of_kept n hdetached hattached)

/-- An equation of an edited sheet is that of an attached item, or one that was kept. -/
theorem equation?_cases (h : Edited s graph detached attached seeds s') {n : String} {e : Equation}
    (he : s'.equation? n = some e) :
    (∃ item ∈ attached, item.name = n ∧ e.text = item.text) ∨
      n ∉ detached ∧ n ∉ attached.map (·.name) ∧ ∃ e', s.equation? n = some e' ∧ e'.text = e.text := by
  have htext : s'.text? n = some e.text := by
    rw [text?, he]
    rfl
  by_cases hattached : n ∈ attached.map (·.name)
  · obtain ⟨item, hitem, rfl⟩ := List.mem_map.1 hattached
    rw [h.text?_of_attached item hitem] at htext
    exact Or.inl ⟨item, hitem, rfl, (Option.some.inj htext).symm⟩
  · have hdetached : n ∉ detached := fun hmem => by
      rw [h.text?_of_gone n hmem hattached] at htext
      cases htext
    exact Or.inr ⟨hdetached, hattached, equation?_of_text? (h.text?_of_kept n hdetached hattached) he⟩

/-- The link changes that wait do not matter. -/
theorem withPending (h : Edited s graph detached attached seeds s')
    (pending : OrderedMap String EquationFlags) :
    Edited s graph detached attached seeds { s' with pending } :=
  ⟨h.rewired, h.booked.of_tables rfl rfl rfl, h.options, h.equation?_of_kept, h.text?_of_gone,
    h.text?_of_attached, h.store_of_detached, h.store, h.marked, h.mem_seeds_of_attached,
    h.mem_seeds_of_gone⟩

/-- The nodes of an edited sheet are the names of its equations. -/
theorem wired (h : Edited s graph detached attached seeds s') (hs : s.Wired) (hrest : s'.AtRest) :
    s'.Wired where
  atRest := hrest
  booked := h.booked
  mem_names := by
    intro n
    rw [h.marked.shape.names, h.rewired.mem_names, ← isSome_text?]
    by_cases hattached : n ∈ attached.map (·.name)
    · obtain ⟨item, hitem, rfl⟩ := List.mem_map.1 hattached
      simp [hattached, h.text?_of_attached item hitem]
    · by_cases hdetached : n ∈ detached
      · simp [hattached, hdetached, h.text?_of_gone n hdetached hattached]
      · rw [h.text?_of_kept n hdetached hattached, hs.mem_names, ← isSome_text?]
        simp [hattached, hdetached]

/-- The graph of an edited sheet repeats its equations. -/
theorem linked (h : Edited s graph detached attached seeds s') (hs : Linked host reads s)
    (hitems : Attachable host reads s detached attached) (hrest : s'.AtRest) :
    Linked host reads s' where
  atRest := hrest
  booked := h.booked
  mem_names := (h.wired hs.wired hrest).mem_names
  reported := by
    intro n e he
    rcases h.equation?_cases he with ⟨item, hitem, -, htext⟩ | ⟨-, -, e', he', htext⟩
    · exact hitems.reported item hitem e htext
    · exact (hs.reported n e' he').of_text htext
  mem_edges := by
    intro n e he d
    rw [h.marked.shape.edges]
    rcases h.equation?_cases he with
      ⟨item, hitem, rfl, htext⟩ | ⟨hdetached, hattached, e', he', htext⟩
    · rw [h.rewired.mem_edges_of_attached hitems.nodup hitem, hitems.dependencies_eq item hitem, htext]
    · rw [h.rewired.mem_edges_of_kept hdetached hattached, ← htext]
      exact hs.mem_edges n e' he' d

/-- What is attached is marked. -/
theorem isDirty_of_attached (h : Edited s graph detached attached seeds s') {n : String}
    (hn : n ∈ attached.map (·.name)) : s'.graph.isDirty n = true :=
  h.marked.isDirty_of_mem (h.mem_seeds_of_attached n hn) ((h.rewired.mem_names n).2 (Or.inr hn))

/-- What reads a detached name is marked. -/
theorem isDirty_of_reads (h : Edited s graph detached attached seeds s') {n d : String}
    (hn : n ∈ graph.names) (hedge : ⟨n, d⟩ ∈ graph.edges.toList) (hd : d ∈ detached) :
    s'.graph.isDirty n = true := by
  by_cases hattached : d ∈ attached.map (·.name)
  · -- The name came back: what depends on it is marked with it.
    refine (h.marked.isDirty_iff n).2 (Or.inr ⟨d, h.mem_seeds_of_attached d hattached, ?_, ?_⟩)
    · exact (h.rewired.mem_names d).2 (Or.inr hattached)
    · exact ReflTransGen.single ⟨hedge, hn, (h.rewired.mem_names d).2 (Or.inr hattached)⟩
  · exact h.marked.isDirty_of_mem (h.mem_seeds_of_gone n d hedge hd hattached) hn

/-- What depends on a dirty equation after an edit is dirty, if it was so before. -/
theorem isDirty_of_depends (h : Edited s graph detached attached seeds s')
    (hclosed : ∀ n d, s.graph.Depends n d → s.isDirty d = true → s.isDirty n = true)
    (hfresh : ∀ n ∈ attached.map (·.name), n ∈ detached ∨ n ∉ s.graph.names) {n d : String}
    (hnd : s'.graph.Depends n d) (hd : s'.graph.isDirty d = true) : s'.graph.isDirty n = true := by
  have hdepends : graph.Depends n d := (h.marked.shape.depends_iff n d).1 hnd
  refine h.marked.isDirty_of_depends hdepends hd fun hold => ?_
  by_cases hattached : n ∈ attached.map (·.name)
  · exact h.isDirty_of_attached hattached
  · -- Both were there before, and the one that depends was dirty for the same reason.
    obtain ⟨hname, hdetached⟩ := ((h.rewired.mem_names n).1 hdepends.2.1).resolve_right hattached
    obtain ⟨hdirty, hdname, -⟩ := h.rewired.kept_of_isDirty hfresh hold
    have hbefore : s.graph.Depends n d :=
      ⟨(h.rewired.mem_edges_of_kept hdetached hattached).1 hdepends.1, hname, hdname⟩
    have hndirty := hclosed n d hbefore (by rwa [isDirty_eq])
    rw [isDirty_eq, ← isDirty_congr (h.rewired.mark?_of_kept n hdetached hattached)] at hndirty
    exact (h.marked.isDirty_iff n).2 (Or.inl hndirty)

/-- A kept equation is as current as it was, unless it reads a detached name. -/
theorem current_of_kept (hlocal : host.Local reads) (h : Edited s graph detached attached seeds s')
    (hs : Linked host reads s) {n : String} {e e' : Equation} (he' : s.equation? n = some e')
    (htext : e'.text = e.text) (hn : n ∉ detached) (hreads : ∀ d ∈ reads e'.text, d ∉ detached)
    (hcurrent : e'.Current host s.store) : e.Current host s'.store := by
  refine Equation.Current.of_text htext ?_
  refine hcurrent.congr hlocal (hs.reported n e' he') (fun d hd => ?_) ?_
  · rw [h.store d (hreads d hd)]
    exact SameValue.refl _
  · rw [hs.booked.name_eq_of_equation? he', h.store n hn]
    exact SameValue.refl _

/-- An equation that is clean after an edit is current: it was kept, was clean, and reads nothing that
was detached. -/
theorem current_of_not_isDirty (hlocal : host.Local reads)
    (h : Edited s graph detached attached seeds s') (hs : Coherent host reads s) {n : String}
    {e : Equation} (he : s'.equation? n = some e) (hn : ¬ s'.graph.isDirty n = true) :
    e.Current host s'.store := by
  rcases h.equation?_cases he with ⟨item, hitem, rfl, -⟩ | ⟨hdetached, hattached, e', he', htext⟩
  · exact absurd (h.isDirty_of_attached (List.mem_map_of_mem hitem)) hn
  · have hname : n ∈ graph.names :=
      (h.rewired.mem_names n).2 (Or.inl ⟨(hs.linked.mem_names n).2 ⟨e', he'⟩, hdetached⟩)
    have hclean : ¬ s.isDirty n = true := by
      rw [isDirty_eq, ← isDirty_congr (h.rewired.mark?_of_kept n hdetached hattached)]
      exact fun hdirty => hn ((h.marked.isDirty_iff n).2 (Or.inl hdirty))
    refine h.current_of_kept hlocal hs.linked he' htext hdetached (fun d hd hmem => hn ?_)
      (hs.current_of_not_stale n e' he' hclean)
    have hedge : ⟨n, d⟩ ∈ graph.edges.toList :=
      (h.rewired.mem_edges_of_kept hdetached hattached).2 ((hs.linked.mem_edges n e' he' d).2 hd)
    exact h.isDirty_of_reads hname hedge hmem

/-- An equation that is fresh after an edit is current: everything that it reads has a stamp, so all of
it was kept, and it was fresh before. -/
theorem current_of_fresh (hlocal : host.Local reads)
    (h : Edited s graph detached attached seeds s') (hs : Coherent host reads s)
    (hitems : Attachable host reads s detached attached) {n : String} {e : Equation}
    (he : s'.equation? n = some e) (hfresh : s'.graph.Fresh n) : e.Current host s'.store := by
  unfold Fresh at hfresh
  simp only [h.marked.stampOf, h.marked.shape.edges] at hfresh
  obtain ⟨hstamp, hdetached, hattached⟩ := h.rewired.kept_of_stampOf hitems.fresh hfresh.1
  rcases h.equation?_cases he with ⟨item, hitem, rfl, -⟩ | ⟨-, -, e', he', htext⟩
  · exact absurd (List.mem_map_of_mem hitem) hattached
  have hdeps : ∀ d ∈ reads e'.text, 0 < s.graph.stampOf d ∧
      s.graph.stampOf d < s.graph.stampOf n ∧ d ∉ detached := by
    intro d hd
    have hedge : ⟨n, d⟩ ∈ graph.edges.toList :=
      (h.rewired.mem_edges_of_kept hdetached hattached).2 ((hs.linked.mem_edges n e' he' d).2 hd)
    obtain ⟨hpos, hlt⟩ := hfresh.2 d hedge
    obtain ⟨hd', hkept, -⟩ := h.rewired.kept_of_stampOf hitems.fresh hpos
    rw [hd'] at hpos hlt
    rw [hstamp] at hlt
    exact ⟨hpos, hlt, hkept⟩
  have hbefore : s.graph.Fresh n := by
    refine ⟨hstamp ▸ hfresh.1, fun d hd => ?_⟩
    have hd' := hdeps d ((hs.linked.mem_edges n e' he' d).1 hd)
    exact ⟨hd'.1, hd'.2.1⟩
  exact h.current_of_kept hlocal hs.linked he' htext hdetached (fun d hd => (hdeps d hd).2.2)
    (hs.current_of_fresh n e' he' hbefore)

/-- An edit of a `Coherent` sheet leaves no stamp later than the one issued last. -/
theorem stampOf_le (h : Edited s graph detached attached seeds s') (hs : Coherent host reads s)
    (hitems : Attachable host reads s detached attached) (n : String) :
    s'.graph.stampOf n ≤ s'.graph.clock.last := by
  rw [h.marked.stampOf, h.marked.clock, h.rewired.clock]
  rcases Nat.eq_zero_or_pos (graph.stampOf n) with hzero | hpos
  · rw [hzero]
    exact Nat.zero_le _
  · rw [(h.rewired.kept_of_stampOf hitems.fresh hpos).1]
    exact hs.stampOf_le n

end Edited

/-- An edit keeps a sheet coherent. -/
theorem CurrentOutside.edited (hlocal : host.Local reads) (hs : Coherent host reads s)
    (hitems : Attachable host reads s detached attached)
    (h : Edited s graph detached attached seeds s') (hrest : s'.AtRest) :
    Coherent host reads s' where
  linked := h.linked hs.linked hitems hrest
  stale_of_depends := by
    intro n d hnd hd
    rw [isDirty_eq] at hd ⊢
    exact h.isDirty_of_depends hs.stale_of_depends hitems.fresh hnd hd
  current_of_not_stale := by
    intro n e he hn
    rw [isDirty_eq] at hn
    exact h.current_of_not_isDirty hlocal hs he hn
  current_of_fresh := fun _ _ he hfresh => h.current_of_fresh hlocal hs hitems he hfresh
  stampOf_le := h.stampOf_le hs hitems

/-! ## Refused edits -/

/-- Sheets that are the same find the same equations. -/
theorem SameSheet.equation? (h : SameSheet s' s) (n : String) : s'.equation? n = s.equation? n := by
  rw [Sheet.equation?, Sheet.equation?, h.owners, h.groups]

/-- A sheet that is the same as one that is `Booked` has the same links. -/
theorem SameSheet.sameLinks (h : SameSheet s' s) (hs : s.Booked) (hrest : s'.AtRest) :
    SameLinks s' s :=
  ⟨hrest, hs.of_tables h.owners h.groups h.created, h.names, h.mem_edges,
    fun n => by rw [text?, text?, h.equation?]⟩

/-- Sheets that are the same agree on what is dirty. -/
theorem SameSheet.isDirty (h : SameSheet s' s) (n : String) : s'.isDirty n = s.isDirty n := by
  rw [isDirty_eq, isDirty_eq, isDirty_congr (h.mark? n)]

/-- A sheet that is the same up to the order of edges and links is as coherent. -/
theorem CurrentOutside.of_sameSheet (h : Coherent host reads s) (hsame : SameSheet s' s)
    (hrest : s'.AtRest) : Coherent host reads s' := by
  have hlinks := hsame.sameLinks h.linked.booked hrest
  refine (h.of_sameLinks hlinks hsame.store (fun n => ?_) hsame.clock).congr fun n => ?_
  · exact stampOf_congr (hsame.mark? n)
  · rw [hsame.isDirty]

/-! ## The edits -/

/-- What a structural edit does: nothing, or it rewires the graph and changes the equations accordingly,
with items that the host reports. -/
inductive EditStep (host : Host) (s s' : Sheet) : Prop
  | same (sheet : SameSheet s' s) : EditStep host s s'
  | edited {graph : Graph} {detached seeds : List String} {attached : List ParseItem}
      (edited : Edited s graph detached attached seeds s')
      (nodup : (attached.map (·.name)).Nodup)
      (fresh : ∀ n ∈ attached.map (·.name), n ∈ detached ∨ n ∉ s.graph.names)
      (reported : ∀ item ∈ attached, ∃ statement items,
        host.parse .statement statement = .ok items ∧ item ∈ items) : EditStep host s s'

/-- A structural edit keeps the nodes the names of the equations. -/
theorem EditStep.wired (h : EditStep host s s') (hs : s.Wired) (hrest : s'.AtRest) : s'.Wired := by
  cases h with
  | same sheet => exact hs.of_sameLinks (sheet.sameLinks hs.booked hrest)
  | edited edited nodup fresh reported => exact edited.wired hs hrest

/-- Over a local host, a structural edit keeps a sheet coherent. -/
theorem CurrentOutside.editStep (hlocal : host.Local reads) (hs : Coherent host reads s)
    (h : EditStep host s s') (hrest : s'.AtRest) : Coherent host reads s' := by
  cases h with
  | same sheet => exact hs.of_sameSheet sheet hrest
  | edited edited nodup fresh reported =>
    refine hs.edited hlocal ⟨nodup, fresh, fun item hitem => ?_, fun item hitem e he => ?_⟩ edited hrest
    · obtain ⟨statement, items, hparse, hmem⟩ := reported item hitem
      exact hlocal.dependencies_eq statement items hparse item hmem
    · obtain ⟨statement, items, hparse, hmem⟩ := reported item hitem
      exact ⟨statement, items, hparse, item, hmem, he.symm⟩

/-- Creating the group of a statement, after the graph was rewired, is an edit. -/
theorem edited_createGroup (hs : s.Booked) (hg : graph.WellFormed)
    (pending : OrderedMap String EquationFlags) (statement : String) {items : List ParseItem}
    (hnodup : (items.map (·.name)).Nodup)
    (htaken : ∀ item ∈ items, s.hasEquation item.name = false)
    (hrewired : Rewired s.graph [] items graph) :
    Edited s graph [] items (items.map (·.name))
      (({ s with graph, pending } : Sheet).createGroup statement items).value.1 := by
  have hbooked : ({ s with graph, pending } : Sheet).Booked := hs.of_tables rfl rfl rfl
  have hentered := entered_createGroup hbooked hg statement hnodup
  have hnew : ∀ item ∈ items, s.owners.get? item.name = none := fun item hitem =>
    hasEquation_eq_false_iff.1 (htaken item hitem)
  refine ⟨hrewired, hentered.booked hbooked hnew, hentered.options, fun n _ hn => ?_,
    fun n hn => absurd hn List.not_mem_nil, fun item hitem => ?_, fun n hn => absurd hn List.not_mem_nil,
    fun n _ => ?_, hentered.marked, fun n hn => hn, fun n d _ hd => absurd hd List.not_mem_nil⟩
  · exact hentered.equation?_of_not_mem hn
  · exact hentered.text?_of_mem hitem
  · exact congrArg (·.get? n) hentered.store

/-- Destroying the equations of a group and dropping it, after the graph was rewired, is an edit. -/
theorem edited_dropGroup (hs : s.Booked) (hg : graph.WellFormed)
    (pending pending' : OrderedMap String EquationFlags) {id : GroupId} {group : Group}
    (hgroup : s.group? id = some group) (hrewired : Rewired s.graph group.names [] graph) :
    let struck := (group.names.foldlM destroy ({ s with graph, pending } : Sheet)).value
    Edited s graph group.names [] (({ s with graph, pending } : Sheet).readers group.names)
      { struck with groups := struck.groups.erase id, pending := pending' } := by
  intro struck
  have hbooked : ({ s with graph, pending } : Sheet).Booked := hs.of_tables rfl rfl rfl
  have hdestroyed : Destroyed ({ s with graph, pending } : Sheet) group.names struck :=
    destroyed_foldlM hbooked hg group.names
  have hempty : ∀ n, struck.entryIn? id n = none := by
    intro n
    rw [hdestroyed.entryIn?]
    split_ifs with hn
    · rfl
    · show s.entryIn? id n = none
      rw [entryIn?_of_group? hgroup, OrderedMap.get?_eq_none]
      exact hn
  refine ⟨hrewired, (hdestroyed.booked hbooked).dropGroup hempty, hdestroyed.options, fun n hn _ => ?_,
    fun n hn _ => ?_, fun _ h => absurd h List.not_mem_nil, fun n hn => ?_, fun n hn => ?_,
    hdestroyed.marked, fun n hn => absurd hn List.not_mem_nil, fun n d hedge hd _ => ?_⟩
  · rw [equation?_dropGroup hempty, hdestroyed.equation?, if_neg hn]
    rfl
  · rw [text?, equation?_dropGroup hempty, hdestroyed.equation?, if_pos hn]
    rfl
  · show struck.store.get? n = none
    rw [hdestroyed.store, if_pos hn]
  · show struck.store.get? n = s.store.get? n
    rw [hdestroyed.store, if_neg hn]
  · exact (mem_readers hg).2 ⟨d, hd, hedge⟩

/-- Adding a group is a structural edit. -/
theorem Wired.enterGroup (hs : s.Wired) (host : Host) (statement : String) :
    EditStep host s (s.enterGroup host statement).value.1 := by
  rcases hs.atRest.enterGroup_cases host statement with
    hrefused | ⟨items, graph, pending, hparse, hnodup, htaken, hsound, -, hrewired, hvalue⟩
  · exact .same hrefused.sheet
  · have hedited := edited_createGroup hs.booked hsound.wellFormed pending statement hnodup htaken
      hrewired
    rw [hvalue]
    refine .edited (hedited.withPending ∅) hnodup (fun n hn => ?_) fun item hitem =>
      ⟨statement, items, hparse, hitem⟩
    obtain ⟨item, hitem, rfl⟩ := List.mem_map.1 hn
    exact Or.inr (hs.not_mem_names (htaken item hitem))

/-- Removing a group is a structural edit. -/
theorem Wired.removeGroup (hs : s.Wired) (host : Host) (id : GroupId) :
    EditStep host s (s.removeGroup id).value.1 := by
  rcases hs.atRest.removeGroup_cases id with
    hrefused | ⟨group, graph, pending, hgroup, hsound, -, hrewired, hvalue⟩
  · exact .same hrefused.sheet
  · have hedited := edited_dropGroup hs.booked hsound.wellFormed pending ∅ hgroup hrewired
    rw [hvalue]
    exact .edited hedited List.nodup_nil (fun n hn => absurd hn List.not_mem_nil)
      fun item hitem => absurd hitem List.not_mem_nil

/-! ## Changing a group -/

section Diff

variable {group : Group} {items : List ParseItem}

/-- A change of a group detaches what it removes and what it updates. -/
theorem mem_detached {d : GroupDiff} {n : String} :
    n ∈ d.detached ↔ n ∈ d.removed ∨ n ∈ d.updated.map (·.name) := List.mem_append

/-- A change of a group attaches what it adds and what it updates. -/
theorem mem_names_attached {d : GroupDiff} {n : String} :
    n ∈ d.attached.map (·.name) ↔ n ∈ d.added.map (·.name) ∨ n ∈ d.updated.map (·.name) := by
  rw [GroupDiff.attached, List.map_append, List.mem_append]

/-- A change of a group removes the equations of the group that are no longer among the items. -/
theorem mem_removed {n : String} :
    n ∈ (diff group items).removed ↔ n ∈ group.names ∧ n ∉ items.map (·.name) := by
  simp [diff]

/-- What is added is among the items. -/
theorem added_subset : (diff group items).added ⊆ items := List.filter_subset_self _

/-- What is updated is among the items. -/
theorem updated_subset : (diff group items).updated ⊆ items := List.filter_subset_self _

/-- What is attached is among the items. -/
theorem attached_subset : (diff group items).attached ⊆ items :=
  List.append_subset.2 ⟨added_subset, updated_subset⟩

/-- An item that is added has no equation in the group. -/
theorem get?_of_mem_added {item : ParseItem} (h : item ∈ (diff group items).added) :
    group.equations.get? item.name = none :=
  Option.isNone_iff_eq_none.1 (List.mem_filter.1 h).2

/-- An item that is updated has an equation in the group. -/
theorem get?_of_mem_updated {item : ParseItem} (h : item ∈ (diff group items).updated) :
    ∃ e, group.equations.get? item.name = some e := by
  have hany := (List.mem_filter.1 h).2
  cases hget : group.equations.get? item.name with
  | none =>
    rw [hget] at hany
    cases hany
  | some e => exact ⟨e, rfl⟩

/-- An item that is updated is not added. -/
theorem not_mem_added_of_updated {item : ParseItem} (h : item ∈ (diff group items).updated) :
    item.name ∉ (diff group items).added.map (·.name) := by
  intro hmem
  obtain ⟨item', hitem', hname⟩ := List.mem_map.1 hmem
  obtain ⟨e, he⟩ := get?_of_mem_updated h
  rw [← hname, get?_of_mem_added hitem'] at he
  cases he

/-- No name is added twice, if the items have different names. -/
theorem nodup_added (group : Group) (hnodup : (items.map (·.name)).Nodup) :
    ((diff group items).added.map (·.name)).Nodup := hnodup.sublist (List.filter_sublist.map _)

/-- No name is updated twice, if the items have different names. -/
theorem nodup_updated (group : Group) (hnodup : (items.map (·.name)).Nodup) :
    ((diff group items).updated.map (·.name)).Nodup := hnodup.sublist (List.filter_sublist.map _)

/-- No name is both added and updated. -/
theorem nodup_attached (group : Group) (hnodup : (items.map (·.name)).Nodup) :
    ((diff group items).attached.map (·.name)).Nodup := by
  rw [GroupDiff.attached, List.map_append]
  refine List.Nodup.append (nodup_added group hnodup) (nodup_updated group hnodup) ?_
  intro n hadded hupdated
  obtain ⟨item, hitem, rfl⟩ := List.mem_map.1 hupdated
  exact not_mem_added_of_updated hitem hadded

end Diff

/-- The change of a group is carried out in three stages: what is removed is destroyed, what is updated
is revised in place, and what is added is entered. -/
structure Staged (s : Sheet) (id : GroupId) (d : GroupDiff) (s₁ s₂ s' : Sheet) : Prop where
  destroyed : Destroyed s d.removed s₁
  revised : Revised s₁ d.updated s₂
  entered : Entered s₂ id d.added s'

namespace Staged

variable {id : GroupId} {d : GroupDiff} {s₁ s₂ : Sheet}

/-- A change of a group keeps a sheet `Booked`, if what it adds is not taken. -/
theorem booked (h : Staged s id d s₁ s₂ s')
    (htaken : ∀ item ∈ d.added, s.hasEquation item.name = false) : s'.Booked := by
  refine h.entered.booked h.revised.booked fun item hitem => ?_
  rw [h.revised.owners, h.destroyed.owners]
  split_ifs
  · rfl
  · exact hasEquation_eq_false_iff.1 (htaken item hitem)

/-- A change of a group keeps the options. -/
theorem options (h : Staged s id d s₁ s₂ s') : s'.options = s.options :=
  (h.entered.options.trans h.revised.options).trans h.destroyed.options

/-- A change of a group keeps the equations that it neither detaches nor attaches. -/
theorem equation?_of_kept (h : Staged s id d s₁ s₂ s') {n : String} (hn : n ∉ d.detached)
    (hattached : n ∉ d.attached.map (·.name)) : s'.equation? n = s.equation? n := by
  rw [mem_detached, not_or] at hn
  rw [mem_names_attached, not_or] at hattached
  rw [h.entered.equation?_of_not_mem hattached.1, h.revised.equation?_of_not_mem n hn.2,
    h.destroyed.equation?, if_neg hn.1]

/-- A name that is gone was removed, for what is updated is attached again. -/
theorem text?_of_gone (h : Staged s id d s₁ s₂ s') {n : String} (hn : n ∈ d.detached)
    (hattached : n ∉ d.attached.map (·.name)) : s'.text? n = none := by
  rw [mem_names_attached, not_or] at hattached
  have hremoved : n ∈ d.removed := (mem_detached.1 hn).resolve_right hattached.2
  rw [h.entered.text?_of_not_mem hattached.1, h.revised.text?_of_not_mem n hattached.2, text?,
    h.destroyed.equation?, if_pos hremoved]
  rfl

/-- An equation that is updated has the text of its item. -/
theorem text?_of_updated (h : Staged s id d s₁ s₂ s') {item : ParseItem} {e : Equation}
    (hitem : item ∈ d.updated) (hadded : item.name ∉ d.added.map (·.name))
    (hremoved : item.name ∉ d.removed) (he : s.equation? item.name = some e) :
    s'.text? item.name = some item.text := by
  rw [h.entered.text?_of_not_mem hadded]
  refine h.revised.text?_of_mem item hitem ⟨e, ?_⟩
  rw [h.destroyed.equation?, if_neg hremoved]
  exact he

/-- A change of a group keeps the values of the names that it does not detach. -/
theorem store (h : Staged s id d s₁ s₂ s') {n : String} (hn : n ∉ d.detached) :
    s'.store.get? n = s.store.get? n := by
  rw [mem_detached, not_or] at hn
  rw [h.entered.store, h.revised.store, if_neg hn.2, h.destroyed.store, if_neg hn.1]

/-- A name that a change of a group detaches has lost its value. -/
theorem store_of_detached (h : Staged s id d s₁ s₂ s') {n : String} (hn : n ∈ d.detached) :
    s'.store.get? n = none := by
  rw [h.entered.store, h.revised.store]
  split_ifs with hupdated
  · rfl
  · rw [h.destroyed.store, if_pos ((mem_detached.1 hn).resolve_right hupdated)]

/-- A change of a group marks the readers of what is removed, what is updated and what is added. -/
theorem marked (h : Staged s id d s₁ s₂ s') :
    Marked s.graph (s.readers d.removed ++ d.updated.map (·.name) ++ d.added.map (·.name)) s'.graph :=
  (h.destroyed.marked.append h.revised.marked).append h.entered.marked

end Staged

/-- `Sheet.applyDiff` goes through the stages of a change: it destroys what is removed, revises what is
updated and enters what is added. -/
theorem staged_applyDiff (hs : s.Booked) (hg : s.graph.WellFormed) (statement : String) {id : GroupId}
    {group : Group} {items : List ParseItem} (hgroup : s.group? id = some group)
    (hnodup : (items.map (·.name)).Nodup) :
    let d := diff group items
    let destroyed := (d.removed.foldlM destroy s).value
    let revised := (d.updated.foldlM revise destroyed).value
    Staged s id d destroyed revised (s.applyDiff id statement items d).value := by
  intro d destroyed revised
  have hdestroyed : Destroyed s d.removed destroyed := destroyed_foldlM hs hg d.removed
  have hgd := hdestroyed.marked.shape.wellFormed hg
  have hrevised : Revised destroyed d.updated revised :=
    revised_foldlM (hdestroyed.booked hs) hgd (nodup_updated group hnodup)
  have hgr := hrevised.marked.shape.wellFormed hgd
  have hid : id ∈ revised.groups.keys := by
    rw [hrevised.keys, hdestroyed.keys]
    exact OrderedMap.isSome_get?.1 (by rw [show s.groups.get? id = some group from hgroup]; rfl)
  exact ⟨hdestroyed, hrevised, entered_restate hgr hid statement items (nodup_added group hnodup)⟩

/-- Carrying out the change of a group, after the graph was rewired, is an edit. -/
theorem edited_applyDiff (hs : s.Booked) (hg : graph.WellFormed)
    (pending : OrderedMap String EquationFlags) (statement : String) {id : GroupId} {group : Group}
    {items : List ParseItem} (hgroup : s.group? id = some group)
    (hnodup : (items.map (·.name)).Nodup)
    (htaken : ∀ item ∈ (diff group items).added, s.hasEquation item.name = false)
    (hrewired : Rewired s.graph (diff group items).detached (diff group items).attached graph) :
    Edited s graph (diff group items).detached (diff group items).attached
      (({ s with graph, pending } : Sheet).readers (diff group items).removed ++
        (diff group items).updated.map (·.name) ++ (diff group items).added.map (·.name))
      (({ s with graph, pending } : Sheet).applyDiff id statement items (diff group items)).value := by
  have hbooked : ({ s with graph, pending } : Sheet).Booked := hs.of_tables rfl rfl rfl
  have hstaged := staged_applyDiff hbooked hg statement hgroup hnodup
  refine ⟨hrewired, hstaged.booked htaken, hstaged.options, fun n => hstaged.equation?_of_kept,
    fun n => hstaged.text?_of_gone, fun item hitem => ?_, fun n => hstaged.store_of_detached,
    fun n => hstaged.store, hstaged.marked, fun n hn => ?_, fun n m hedge hm hattached => ?_⟩
  · rcases List.mem_append.1 hitem with hitem | hitem
    · exact hstaged.entered.text?_of_mem hitem
    · obtain ⟨e, he⟩ := get?_of_mem_updated hitem
      refine hstaged.text?_of_updated hitem (not_mem_added_of_updated hitem) (fun hmem => ?_)
        (hs.equation?_of_entryIn? ((entryIn?_of_group? hgroup item.name).trans he))
      exact (mem_removed.1 hmem).2 (List.mem_map_of_mem (updated_subset hitem))
  · rcases mem_names_attached.1 hn with hn | hn
    · exact List.mem_append_right _ hn
    · exact List.mem_append_left _ (List.mem_append_right _ hn)
  · rw [mem_names_attached, not_or] at hattached
    refine List.mem_append_left _ (List.mem_append_left _ ?_)
    exact (mem_readers hg).2 ⟨m, (mem_detached.1 hm).resolve_right hattached.2, hedge⟩

/-- What a change of a group attaches has no node, once the detached names are gone. -/
theorem Wired.fresh_attached (hs : s.Wired) {group : Group} {items : List ParseItem}
    (htaken : ∀ item ∈ (diff group items).added, s.hasEquation item.name = false) :
    ∀ n ∈ (diff group items).attached.map (·.name),
      n ∈ (diff group items).detached ∨ n ∉ s.graph.names := by
  intro n hn
  rcases mem_names_attached.1 hn with hadded | hupdated
  · obtain ⟨item, hitem, rfl⟩ := List.mem_map.1 hadded
    exact Or.inr (hs.not_mem_names (htaken item hitem))
  · exact Or.inl (mem_detached.2 (Or.inr hupdated))

/-- Giving a group another statement is a structural edit. -/
theorem Wired.changeGroup (hs : s.Wired) (host : Host) (id : GroupId) (statement : String) :
    EditStep host s (s.changeGroup host id statement).value.1 := by
  rcases hs.atRest.changeGroup_cases host id statement with
    hrefused | hsame | ⟨group, items, graph, pending, hgroup, hparse, hnodup, htaken, hsound, -,
      hrewired, hvalue⟩
  · exact .same hrefused.sheet
  · rw [hsame]
    exact .same (SameSheet.refl s)
  · have hattached := nodup_attached group hnodup
    have hedited := edited_applyDiff hs.booked hsound.wellFormed pending statement hgroup hnodup htaken
      (hrewired hattached)
    rw [hvalue]
    exact .edited (hedited.withPending ∅) hattached (hs.fresh_attached htaken) fun item hitem =>
      ⟨statement, items, hparse, attached_subset hitem⟩

/-! ## The edits keep a sheet coherent -/

namespace CurrentOutside

/-- `Sheet.enterGroup` keeps a sheet `Coherent`, refused or not. -/
theorem enterGroup (hlocal : host.Local reads) (hs : Coherent host reads s) (statement : String) :
    Coherent host reads (s.enterGroup host statement).value.1 :=
  hs.editStep hlocal (hs.linked.wired.enterGroup host statement)
    (hs.linked.atRest.enterGroup host statement)

/-- `Sheet.removeGroup` keeps a sheet `Coherent`, refused or not. -/
theorem removeGroup (hlocal : host.Local reads) (hs : Coherent host reads s) (id : GroupId) :
    Coherent host reads (s.removeGroup id).value.1 :=
  hs.editStep hlocal (hs.linked.wired.removeGroup host id) (hs.linked.atRest.removeGroup id)

/-- `Sheet.changeGroup` keeps a sheet `Coherent`, refused or not. -/
theorem changeGroup (hlocal : host.Local reads) (hs : Coherent host reads s) (id : GroupId)
    (statement : String) : Coherent host reads (s.changeGroup host id statement).value.1 :=
  hs.editStep hlocal (hs.linked.wired.changeGroup host id statement)
    (hs.linked.atRest.changeGroup host id statement)

end CurrentOutside

end Sheet

end Recalc
