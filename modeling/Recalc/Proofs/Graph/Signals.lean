import Recalc.Proofs.Graph.Extend
import Recalc.Proofs.Graph.View

/-!
# What signals say

A signal is about an end of an edge that is linked or unlinked, and that end is a node at that moment:
so what an edge can say is known from the edge (`Permits`).

Signals also keep count. While edges are linked, link sets only grow, and while edges are unlinked, they
only shrink; either way a link set changes by as many names as there are signals about it (`Gains`,
`Loses`). In particular, while a graph is extended, a signal about a name is announced exactly if the link
set of the name did grow (`Grows`).
-/

namespace Recalc

/-- The name that a signal is about. -/
def LinkSignal.name : LinkSignal → String
  | .dependencies name => name
  | .dependents name => name

namespace Graph

variable {g g' : Graph} {P : LinkSignal → Prop}

/-! ## Signals of a kind -/

/-- The signals that an edge can cause in a graph are of a kind. -/
structure Permits (P : LinkSignal → Prop) (g : Graph) (e : Edge) : Prop where
  source : e.source ∈ g.names → P (.dependencies e.source)
  target : e.target ∈ g.names → P (.dependents e.target)

/-- Where there are fewer nodes, fewer signals are possible. -/
theorem Permits.of_subset {e : Edge} (h : Permits P g e) (hnames : g'.names ⊆ g.names) :
    Permits P g' e := ⟨fun hs => h.source (hnames hs), fun ht => h.target (hnames ht)⟩

/-- The signals of an edge are of a kind if those about its source and about its target are. -/
theorem every_linkSignals {e : Edge} {atSource atTarget : Bool}
    (hsource : atSource = true → P (.dependencies e.source))
    (htarget : atTarget = true → P (.dependents e.target)) :
    ∀ signal ∈ linkSignals e atSource atTarget, P signal := by
  intro signal hsignal
  rcases List.mem_append.1 hsignal with h | h
  · split_ifs at h with hat
    · exact List.mem_singleton.1 h ▸ hsource hat
    · cases h
  · split_ifs at h with hat
    · exact List.mem_singleton.1 h ▸ htarget hat
    · cases h

/-- All signals of `Graph.link` are of a kind that the edge permits. -/
theorem Permits.link {e : Edge} (h : Permits P g e) : (g.link e).Every P := by
  unfold Graph.link
  cases hs : g.node? e.source with
  | none => exact Traced.Every.pure g
  | some s =>
    cases ht : g.node? e.target with
    | none => exact Traced.Every.pure g
    | some t =>
      exact every_linkSignals (fun _ => h.source (mem_names_iff.2 ⟨s, hs⟩))
        fun _ => h.target (mem_names_iff.2 ⟨t, ht⟩)

/-- All signals of `Graph.unlink` are of a kind that the edge permits. -/
theorem Permits.unlink {e : Edge} (h : Permits P g e) : (g.unlink e).Every P := by
  refine every_linkSignals (fun hat => h.source ?_) fun hat => h.target ?_
  · obtain ⟨node, hnode, -⟩ := (Option.any_eq_true _ _).1 hat
    exact mem_names_iff.2 ⟨node, hnode⟩
  · obtain ⟨node, hnode, -⟩ := (Option.any_eq_true _ _).1 hat
    exact mem_names_iff.2 ⟨node, hnode⟩

/-- Linking and unlinking edges one after the other. -/
theorem every_foldlM {f : Graph → Edge → Traced LinkSignal Graph}
    (hframe : ∀ g e, SameFrame (f g e).value g) (hf : ∀ g e, Permits P g e → (f g e).Every P)
    {es : List Edge} (h : ∀ e ∈ es, Permits P g e) : (es.foldlM f g).Every P := by
  induction es generalizing g with
  | nil => exact Traced.Every.pure g
  | cons e es ih =>
    rw [List.forall_mem_cons] at h
    have hnames := (hframe g e).names
    rw [List.foldlM_cons]
    exact (hf g e h.1).bind (ih fun e' he' => (h.2 e' he').of_subset (hnames ▸ List.Subset.refl _))

/-- All signals of `Graph.attach` are of a kind if those about the ends of the edges at the new node are. -/
theorem every_attach {place : Nat} {name : String} {node : Node} (hg : g.WellFormed)
    (h : ∀ e ∈ g.edges.toList, e.source = name ∨ e.target = name →
      P (.dependencies e.source) ∧ P (.dependents e.target)) :
    (g.attach place name node).Every P := by
  refine every_foldlM sameFrame_link (fun g e => Permits.link) fun e he => ?_
  obtain ⟨hmem, hat⟩ := (mem_edgesAt hg.indexed).1 he
  have hboth := h e hmem hat
  exact ⟨fun _ => hboth.1, fun _ => hboth.2⟩

/-- All signals of `Graph.removeNode` are of a kind that the edges at the node permit. -/
theorem every_removeNode {name : String} (hg : g.WellFormed)
    (h : ∀ e ∈ g.edges.toList, e.source = name ∨ e.target = name → Permits P g e) :
    (g.removeNode name).Every P := by
  by_cases hname : name ∈ g.names
  · have hdetach : (g.detach name).Every P := by
      rw [detach_eq name hname]
      refine every_foldlM sameFrame_unlink (fun g e => Permits.unlink) fun e he => ?_
      obtain ⟨hmem, hat⟩ := (mem_edgesAt hg.indexed).1 he
      refine (h e hmem hat).of_subset fun n hn => ?_
      have hn' : n ∈ g.nodes.keys.filter (· ≠ name) := OrderedMap.keys_erase g.nodes name ▸ hn
      exact (List.mem_filter.1 hn').1
    obtain ⟨node, hnode⟩ := mem_names_iff.1 hname
    obtain ⟨place, hplace⟩ := indexOf?_of_mem hname
    rw [removeNode_eq hnode hplace]
    exact hdetach.map _
  · rw [removeNode_of_not_mem hname]
    exact Traced.Every.pure _

/-- All signals of `Graph.removeEdge` are of a kind that the edge permits. -/
theorem every_removeEdge {e : Edge} (h : Permits P g e) : (g.removeEdge e).Every P := by
  by_cases he : e ∈ g.edges.toList
  · have hdrop : Permits P { g with edges := (g.edges.erase e).1 } e := h.of_subset (List.Subset.refl _)
    rw [removeEdge_of_mem he]
    exact hdrop.unlink.map _
  · rw [removeEdge_of_not_mem he]
    exact Traced.Every.pure _

/-- All signals of `Graph.removeEdges` are of a kind that the edges permit. -/
theorem every_removeEdges {es : List Edge} (h : ∀ e ∈ es, Permits P g e) :
    (g.removeEdges es).Every P := by
  induction es generalizing g with
  | nil => exact Traced.Every.pure _
  | cons e es ih =>
    rw [List.forall_mem_cons] at h
    have hnames : (g.removeEdge e).value.1.names ⊆ g.names := by rw [names_removeEdge]; simp
    have hrest := ih fun e' he' => (h.2 e' he').of_subset hnames
    exact (every_removeEdge h.1).bind (hrest.bind (Traced.Every.pure _))

/-! ## Counting names -/

/-- The link set that a signal is about. -/
def linksOf (g : Graph) : LinkSignal → List String
  | .dependencies name => g.dependenciesOf name
  | .dependents name => g.dependentsOf name

/-- No link set holds a name twice. -/
theorem nodup_linksOf (g : Graph) (signal : LinkSignal) : (g.linksOf signal).Nodup := by
  cases signal with
  | dependencies name => exact nodup_dependenciesOf g name
  | dependents name => exact nodup_dependentsOf g name

/-- The link sets of a name are a matter of its node. -/
theorem linksOf_congr {signal : LinkSignal} (h : g'.node? signal.name = g.node? signal.name) :
    g'.linksOf signal = g.linksOf signal := by
  cases signal with
  | dependencies name => exact congrArg (fun node => (node.map (·.dependencies.toList)).getD []) h
  | dependents name => exact congrArg (fun node => (node.map (·.dependents.toList)).getD []) h

/-- One list of names holds another one, in its order, and `k` names more. -/
structure Exceeds (more less : List String) (k : Nat) : Prop where
  sublist : less.Sublist more
  length_eq : more.length = less.length + k

namespace Exceeds

variable {more less between : List String} {k l : Nat}

theorem refl (names : List String) : Exceeds names names 0 := ⟨List.Sublist.refl _, rfl⟩

theorem trans (h₁ : Exceeds more between k) (h₂ : Exceeds between less l) :
    Exceeds more less (k + l) := by
  refine ⟨h₂.sublist.trans h₁.sublist, ?_⟩
  rw [h₁.length_eq, h₂.length_eq]
  omega

/-- A list exceeds another one by one number of names only. -/
theorem unique (h₁ : Exceeds more less k) (h₂ : Exceeds more less l) : k = l :=
  Nat.add_left_cancel (h₁.length_eq.symm.trans h₂.length_eq)

/-- A name is put at the end, or nothing is done. -/
theorem append (names : List String) (name : String) (c : Prop) [Decidable c] :
    Exceeds (if c then names ++ [name] else names) names (if c then 1 else 0) := by
  split_ifs
  · exact ⟨List.sublist_append_left _ _, List.length_append⟩
  · exact refl names

/-- A name is taken out, if it is there, or nothing is done. -/
theorem filter {names : List String} (hnodup : names.Nodup) {p : String → Bool} {name : String}
    {c : Prop} [Decidable c] (hp : ∀ n, p n = false ↔ c ∧ n = name) :
    Exceeds names (names.filter p) (if c ∧ name ∈ names then 1 else 0) := by
  refine ⟨List.filter_sublist, ?_⟩
  split_ifs with h
  · have hrest : names.filter p = names.erase name := by
      rw [hnodup.erase_eq_filter]
      refine List.filter_congr fun n _ => Bool.eq_iff_iff.2 ?_
      rw [← Bool.not_eq_false, hp, and_iff_right h.1, bne_iff_ne]
    rw [hrest, List.length_erase_add_one h.2]
  · have hall : names.filter p = names := by
      refine List.filter_eq_self.2 fun n hn => Bool.of_not_eq_false fun hpn => ?_
      obtain ⟨hc, rfl⟩ := (hp n).1 hpn
      exact h ⟨hc, hn⟩
    rw [hall, Nat.add_zero]

/-- There are names more exactly if the longer list has one that the shorter one has not. -/
theorem pos_iff (h : Exceeds more less k) (hnodup : more.Nodup) : 0 < k ↔ ¬ more ⊆ less := by
  rw [Nat.pos_iff_ne_zero, not_iff_not]
  constructor
  · rintro rfl
    rw [h.sublist.eq_of_length h.length_eq.symm]
    exact List.Subset.refl _
  · intro hback
    have hle : more.length ≤ less.length := hnodup.length_le_of_subset hback
    have heq : more.length = less.length + k := h.length_eq
    omega

end Exceeds

/-! ## Counting signals -/

/-- Link sets only grow, each by as many names as there are signals about it. -/
def Gains (g : Graph) (t : Traced LinkSignal Graph) : Prop :=
  ∀ signal, Exceeds (t.value.linksOf signal) (g.linksOf signal) (t.events.count signal)

/-- Link sets only shrink, each by as many names as there are signals about it. -/
def Loses (g : Graph) (t : Traced LinkSignal Graph) : Prop :=
  ∀ signal, Exceeds (g.linksOf signal) (t.value.linksOf signal) (t.events.count signal)

namespace Gains

/-- Doing nothing gains nothing and signals nothing. -/
theorem pure (g : Graph) : Gains g (Pure.pure g) := fun _ => Exceeds.refl _

/-- Gains of one change and of the next one are gains of both together. -/
theorem bind {t : Traced LinkSignal Graph} {next : Graph → Traced LinkSignal Graph} (h : Gains g t)
    (hnext : Gains t.value (next t.value)) : Gains g (t >>= next) := by
  intro signal
  rw [Traced.events_bind, List.count_append, Nat.add_comm]
  exact (hnext signal).trans (h signal)

/-- Only the links of the start matter. -/
theorem of_start {t : Traced LinkSignal Graph} (h : Gains g' t)
    (hlinks : ∀ signal, g'.linksOf signal = g.linksOf signal) : Gains g t :=
  fun signal => hlinks signal ▸ h signal

end Gains

/-- Losses of one change and of the next one are losses of both together. -/
theorem Loses.bind {t : Traced LinkSignal Graph} {next : Graph → Traced LinkSignal Graph}
    (h : Loses g t) (hnext : Loses t.value (next t.value)) : Loses g (t >>= next) := by
  intro signal
  rw [Traced.events_bind, List.count_append]
  exact (h signal).trans (hnext signal)

/-- The signals of an edge are one about its source and one about its target, each if it is asked for. -/
theorem mem_linkSignals {e : Edge} {atSource atTarget : Bool} {signal : LinkSignal} :
    signal ∈ linkSignals e atSource atTarget ↔
      signal = .dependencies e.source ∧ atSource = true ∨
        signal = .dependents e.target ∧ atTarget = true := by
  unfold linkSignals
  cases atSource <;> cases atTarget <;> simp

/-- An edge signals nothing twice: a signal about dependencies is none about dependents, even for an edge from
a node to itself. -/
theorem nodup_linkSignals (e : Edge) (atSource atTarget : Bool) :
    (linkSignals e atSource atTarget).Nodup := by
  cases atSource <;> cases atTarget <;> simp [linkSignals]

/-- What linking an edge announces. -/
theorem mem_events_link (g : Graph) (e : Edge) (signal : LinkSignal) :
    signal ∈ (g.link e).events ↔ (e.source ∈ g.names ∧ e.target ∈ g.names) ∧
      (signal = .dependencies e.source ∧ e.target ∉ g.dependenciesOf e.source ∨
        signal = .dependents e.target ∧ e.source ∉ g.dependentsOf e.target) := by
  unfold Graph.link
  cases hs : g.node? e.source with
  | none => simp [node?_eq_none.1 hs]
  | some s =>
    cases ht : g.node? e.target with
    | none => simp [node?_eq_none.1 ht]
    | some t =>
      rw [mem_linkSignals, dependenciesOf_of_node? hs, dependentsOf_of_node? ht]
      simp [mem_names_iff, hs, ht, OrderedSet.contains, OrderedSet.mem_def]

/-- `Graph.link` signals nothing twice. -/
theorem nodup_events_link (g : Graph) (e : Edge) : (g.link e).events.Nodup := by
  unfold Graph.link
  cases g.node? e.source with
  | none => exact List.nodup_nil
  | some s =>
    cases g.node? e.target with
    | none => exact List.nodup_nil
    | some t => exact nodup_linkSignals ..

/-- What unlinking an edge announces. -/
theorem mem_events_unlink (g : Graph) (e : Edge) (signal : LinkSignal) :
    signal ∈ (g.unlink e).events ↔
      signal = .dependencies e.source ∧ e.target ∈ g.dependenciesOf e.source ∨
        signal = .dependents e.target ∧ e.source ∈ g.dependentsOf e.target := by
  have hsource : ((g.node? e.source).any fun s => s.dependencies.contains e.target) = true ↔
      e.target ∈ g.dependenciesOf e.source := by
    unfold dependenciesOf
    cases g.node? e.source <;> simp [OrderedSet.mem_def]
  have htarget : ((g.node? e.target).any fun t => t.dependents.contains e.source) = true ↔
      e.source ∈ g.dependentsOf e.target := by
    unfold dependentsOf
    cases g.node? e.target <;> simp [OrderedSet.mem_def]
  exact mem_linkSignals.trans (or_congr (and_congr_right' hsource) (and_congr_right' htarget))

/-- `Graph.link` only grows link sets, by a name for every signal. -/
theorem gains_link (g : Graph) (e : Edge) : Gains g (g.link e) := by
  intro signal
  rw [(nodup_events_link g e).count]
  cases signal with
  | dependencies n =>
    have hiff : .dependencies n ∈ (g.link e).events ↔
        n = e.source ∧ e.source ∈ g.names ∧ e.target ∈ g.names ∧ e.target ∉ g.dependenciesOf n := by
      rw [mem_events_link, LinkSignal.dependencies.injEq]
      constructor
      · rintro ⟨⟨hs, ht⟩, ⟨rfl, hnew⟩ | ⟨h, -⟩⟩
        · exact ⟨rfl, hs, ht, hnew⟩
        · cases h
      · rintro ⟨rfl, hs, ht, hnew⟩
        exact ⟨⟨hs, ht⟩, Or.inl ⟨rfl, hnew⟩⟩
    simp only [hiff, linksOf, dependenciesOf_link]
    exact Exceeds.append ..
  | dependents n =>
    have hiff : .dependents n ∈ (g.link e).events ↔
        n = e.target ∧ e.source ∈ g.names ∧ e.target ∈ g.names ∧ e.source ∉ g.dependentsOf n := by
      rw [mem_events_link, LinkSignal.dependents.injEq]
      constructor
      · rintro ⟨⟨hs, ht⟩, ⟨h, -⟩ | ⟨rfl, hnew⟩⟩
        · cases h
        · exact ⟨rfl, hs, ht, hnew⟩
      · rintro ⟨rfl, hs, ht, hnew⟩
        exact ⟨⟨hs, ht⟩, Or.inr ⟨rfl, hnew⟩⟩
    simp only [hiff, linksOf, dependentsOf_link]
    exact Exceeds.append ..

/-- `Graph.unlink` only shrinks link sets, by a name for every signal. -/
theorem loses_unlink (g : Graph) (e : Edge) : Loses g (g.unlink e) := by
  intro signal
  have hnodup : (g.unlink e).events.Nodup := nodup_linkSignals ..
  rw [hnodup.count]
  cases signal with
  | dependencies n =>
    have hiff : .dependencies n ∈ (g.unlink e).events ↔
        n = e.source ∧ e.target ∈ g.dependenciesOf n := by
      rw [mem_events_unlink, LinkSignal.dependencies.injEq]
      constructor
      · rintro (⟨rfl, hold⟩ | ⟨h, -⟩)
        · exact ⟨rfl, hold⟩
        · cases h
      · rintro ⟨rfl, hold⟩
        exact Or.inl ⟨rfl, hold⟩
    simp only [hiff, linksOf, dependenciesOf_unlink]
    refine Exceeds.filter (nodup_dependenciesOf g n) fun t => ?_
    obtain ⟨a, b⟩ := e
    simp
  | dependents n =>
    have hiff : .dependents n ∈ (g.unlink e).events ↔
        n = e.target ∧ e.source ∈ g.dependentsOf n := by
      rw [mem_events_unlink, LinkSignal.dependents.injEq]
      constructor
      · rintro (⟨h, -⟩ | ⟨rfl, hold⟩)
        · cases h
        · exact ⟨rfl, hold⟩
      · rintro ⟨rfl, hold⟩
        exact Or.inr ⟨rfl, hold⟩
    simp only [hiff, linksOf, dependentsOf_unlink]
    refine Exceeds.filter (nodup_dependentsOf g n) fun f => ?_
    obtain ⟨a, b⟩ := e
    simp [and_comm]

/-- Linking several edges only grows link sets, by a name for every signal. -/
theorem gains_linkAll (es : List Edge) (g : Graph) : Gains g (es.foldlM link g) := by
  induction es generalizing g with
  | nil => exact Gains.pure g
  | cons e es ih =>
    rw [List.foldlM_cons]
    exact (gains_link g e).bind (ih _)

/-- Unlinking several edges only shrinks link sets, by a name for every signal. -/
theorem loses_unlinkAll (es : List Edge) (g : Graph) : Loses g (es.foldlM unlink g) := by
  induction es generalizing g with
  | nil => exact fun _ => Exceeds.refl _
  | cons e es ih =>
    rw [List.foldlM_cons]
    exact (loses_unlink g e).bind (ih _)

/-- A graph gains links when it is extended. -/
theorem gains_extend (g : Graph) (a : Addition) : Gains g (g.extend a) := by
  by_cases ha : g.Has a
  · rw [extend_of_has ha]
    exact Gains.pure g
  · rw [extend_of_not_has ha]
    cases a with
    | node name =>
      -- The new node starts without links.
      have hname : name ∉ g.names := ha
      have hnode : ∀ n, Graph.node? { g with nodes := g.nodes.insertAt g.nodes.size name {} } n =
          if n = name then some {} else g.node? n := fun n => OrderedMap.get?_insertAt ..
      refine (gains_linkAll (g.edgesAt name) _).of_start fun signal => ?_
      cases signal with
      | dependencies n =>
        rw [linksOf, dependenciesOf, hnode]
        split_ifs with hn
        · rw [hn, linksOf, dependenciesOf_of_not_mem hname]
          rfl
        · rfl
      | dependents n =>
        rw [linksOf, dependentsOf, hnode]
        split_ifs with hn
        · rw [hn, linksOf, dependentsOf_of_not_mem hname]
          rfl
        · rfl
    | edge e => exact (gains_link _ e).of_start fun _ => linksOf_congr rfl

/-- Making several additions only grows link sets, by a name for every signal. -/
theorem gains_extendAll (as : List Addition) (g : Graph) : Gains g (g.extendAll as) := by
  induction as generalizing g with
  | nil => exact Gains.pure g
  | cons a as ih =>
    rw [extendAll_cons]
    exact (gains_extend g a).bind (ih _)

/-! ## Growing links -/

/-- A link set only grows, and it is reported exactly if it does. -/
structure GrowsTo (before after : List String) (reported : Prop) : Prop where
  subset : before ⊆ after
  reported_iff : reported ↔ ¬ after ⊆ before

/-- Link sets only grow, and signals say which ones do. -/
structure Grows (g : Graph) (t : Traced LinkSignal Graph) : Prop where
  dependencies : ∀ n,
    GrowsTo (g.dependenciesOf n) (t.value.dependenciesOf n) (.dependencies n ∈ t.events)
  dependents : ∀ n, GrowsTo (g.dependentsOf n) (t.value.dependentsOf n) (.dependents n ∈ t.events)

/-- A link set that gains a name for every signal grows exactly if there is a signal. -/
theorem Gains.growsTo {t : Traced LinkSignal Graph} (h : Gains g t) (signal : LinkSignal) :
    GrowsTo (g.linksOf signal) (t.value.linksOf signal) (signal ∈ t.events) :=
  ⟨(h signal).sublist.subset,
    List.count_pos_iff.symm.trans ((h signal).pos_iff (nodup_linksOf t.value signal))⟩

/-- Making several additions announces exactly the link sets that grow. -/
theorem grows_extendAll (as : List Addition) (g : Graph) : Grows g (g.extendAll as) :=
  ⟨fun n => (gains_extendAll as g).growsTo (.dependencies n),
    fun n => (gains_extendAll as g).growsTo (.dependents n)⟩

end Graph

end Recalc
