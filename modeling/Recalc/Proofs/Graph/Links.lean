import Mathlib.Data.List.Basic
import Recalc.Graph.Batch
import Recalc.Proofs.Graph.EdgeStore

/-!
# Links and edges

The link sets of the nodes repeat what the edges say: `WellFormed` states that a node is linked to
another one exactly if the edge is stored and both ends exist. The four elementary changes of a graph
— a node comes or goes, an edge comes or goes — keep that, wherever they are made.

A graph is looked at through its names, its edges, the link sets of a name and the mark of a name,
which is the dirty flag and stamp of its node. Linking and unlinking change nothing but link sets
(`SameFrame`).
-/

namespace Recalc.Graph

variable {g h : Graph}

/-- The dirty flag and the stamp of the node of a name. -/
def mark? (g : Graph) (n : String) : Option (Bool × Stamp) :=
  (g.node? n).map fun node => (node.dirty, node.stamp)

/-- One name depends on another one: the edge is among the edges and both ends are among the
nodes. -/
def DependsIn (nodes : List String) (edges : List Edge) (a b : String) : Prop :=
  ⟨a, b⟩ ∈ edges ∧ a ∈ nodes ∧ b ∈ nodes

instance (nodes : List String) (edges : List Edge) (a b : String) :
    Decidable (DependsIn nodes edges a b) :=
  inferInstanceAs (Decidable (_ ∧ _ ∧ _))

/-- One node of the graph depends on another one. -/
abbrev Depends (g : Graph) : String → String → Prop := DependsIn g.names g.edges.toList

/-- The indexes of the edges agree with the edges, and so do the link sets of the nodes. -/
structure WellFormed (g : Graph) : Prop where
  indexed : g.edges.Indexed
  mem_dependenciesOf : ∀ n t, t ∈ g.dependenciesOf n ↔ g.Depends n t
  mem_dependentsOf : ∀ n f, f ∈ g.dependentsOf n ↔ g.Depends f n

/-! ## Reading a graph -/

/-- The names of a graph are those under which `Graph.node?` finds a node. -/
theorem mem_names_iff {n : String} : n ∈ g.names ↔ ∃ node, g.node? n = some node := by
  rw [← Option.isSome_iff_exists]
  exact OrderedMap.isSome_get?.symm

/-- `Graph.hasNode` decides membership of `Graph.names`. -/
theorem hasNode_iff {n : String} : g.hasNode n = true ↔ n ∈ g.names := OrderedMap.contains_eq_true

/-- `Graph.node?` finds nothing exactly under the names the graph lacks. -/
theorem node?_eq_none {n : String} : g.node? n = none ↔ n ∉ g.names := OrderedMap.get?_eq_none

/-- No name stands twice in a graph. -/
theorem names_nodup (g : Graph) : g.names.Nodup := g.nodes.keys_nodup

/-- `Graph.mark?` has nothing to say exactly of the names the graph lacks. -/
theorem mark?_eq_none {n : String} : g.mark? n = none ↔ n ∉ g.names := by
  rw [mark?, Option.map_eq_none_iff, node?_eq_none]

/-- The dependencies of an existing node are the list its record holds. -/
theorem dependenciesOf_of_node? {n : String} {node : Node} (hn : g.node? n = some node) :
    g.dependenciesOf n = node.dependencies.toList := by
  simp [dependenciesOf, hn]

/-- The dependents of an existing node are the list its record holds. -/
theorem dependentsOf_of_node? {n : String} {node : Node} (hn : g.node? n = some node) :
    g.dependentsOf n = node.dependents.toList := by
  simp [dependentsOf, hn]

/-- A missing node has no dependencies. -/
theorem dependenciesOf_of_not_mem {n : String} (hn : n ∉ g.names) : g.dependenciesOf n = [] := by
  simp [dependenciesOf, node?_eq_none.2 hn]

/-- A missing node has no dependents. -/
theorem dependentsOf_of_not_mem {n : String} (hn : n ∉ g.names) : g.dependentsOf n = [] := by
  simp [dependentsOf, node?_eq_none.2 hn]

/-- No dependency is listed twice, whether or not the node exists. -/
theorem nodup_dependenciesOf (g : Graph) (n : String) : (g.dependenciesOf n).Nodup := by
  unfold dependenciesOf
  cases g.node? n with
  | none => exact List.nodup_nil
  | some node => exact node.dependencies.nodup

/-- No dependent is listed twice, whether or not the node exists. -/
theorem nodup_dependentsOf (g : Graph) (n : String) : (g.dependentsOf n).Nodup := by
  unfold dependentsOf
  cases g.node? n with
  | none => exact List.nodup_nil
  | some node => exact node.dependents.nodup

/-- A graph is determined by its names, its edges, link sets, marks, journal and clock. -/
theorem ext_view (hnames : g.names = h.names) (hedges : g.edges = h.edges)
    (hdeps : ∀ n, g.dependenciesOf n = h.dependenciesOf n)
    (hdependents : ∀ n, g.dependentsOf n = h.dependentsOf n) (hmark : ∀ n, g.mark? n = h.mark? n)
    (hjournal : g.journal = h.journal) (hclock : g.clock = h.clock) : g = h := by
  have hnodes : g.nodes = h.nodes := by
    refine OrderedMap.ext_get? hnames fun n => ?_
    show g.node? n = h.node? n
    by_cases hn : n ∈ g.names
    · obtain ⟨a, ha⟩ := mem_names_iff.1 hn
      obtain ⟨b, hb⟩ := mem_names_iff.1 (hnames ▸ hn)
      have h1 : a.dependencies = b.dependencies := OrderedSet.ext <| by
        rw [← dependenciesOf_of_node? ha, ← dependenciesOf_of_node? hb, hdeps]
      have h2 : a.dependents = b.dependents := OrderedSet.ext <| by
        rw [← dependentsOf_of_node? ha, ← dependentsOf_of_node? hb, hdependents]
      have h3 := hmark n
      simp only [mark?, ha, hb, Option.map_some, Option.some.injEq, Prod.mk.injEq] at h3
      obtain ⟨h3, h4⟩ := h3
      rw [ha, hb]
      cases a
      cases b
      simp_all
    · rw [node?_eq_none.2 hn, node?_eq_none.2 (hnames ▸ hn)]
  cases g
  cases h
  simp_all

/-! ## Linking and unlinking -/

/-- The graphs differ at most in their link sets. -/
structure SameFrame (g h : Graph) : Prop where
  names : g.names = h.names
  edges : g.edges = h.edges
  mark? : ∀ n, g.mark? n = h.mark? n
  journal : g.journal = h.journal
  clock : g.clock = h.clock

theorem SameFrame.refl (g : Graph) : SameFrame g g := ⟨rfl, rfl, fun _ => rfl, rfl, rfl⟩

theorem SameFrame.trans {k : Graph} (h₁ : SameFrame g h) (h₂ : SameFrame h k) : SameFrame g k :=
  ⟨h₁.names.trans h₂.names, h₁.edges.trans h₂.edges, fun n => (h₁.mark? n).trans (h₂.mark? n),
    h₁.journal.trans h₂.journal, h₁.clock.trans h₂.clock⟩

/-- `Graph.link` rewrites the two end nodes when both exist, and no node otherwise. -/
theorem node?_link (g : Graph) (e : Edge) (n : String) :
    (g.link e).value.node? n =
      if e.source ∈ g.names ∧ e.target ∈ g.names then
        (g.node? n).map fun node =>
          let node := if n = e.source then node.addDependency e.target else node
          if n = e.target then node.addDependent e.source else node
      else g.node? n := by
  by_cases hends : e.source ∈ g.names ∧ e.target ∈ g.names
  · obtain ⟨s, hs⟩ := mem_names_iff.1 hends.1
    obtain ⟨t, ht⟩ := mem_names_iff.1 hends.2
    rw [if_pos hends]
    simp only [link, hs, ht]
    show ((g.nodes.modify _ _).modify _ _).get? n = (g.nodes.get? n).map _
    rw [OrderedMap.get?_modify, OrderedMap.get?_modify]
    split_ifs <;> cases g.nodes.get? n <;> rfl
  · rw [if_neg hends]
    have hnone : g.node? e.source = none ∨ g.node? e.target = none := by
      rw [node?_eq_none, node?_eq_none]
      exact not_and_or.1 hends
    unfold link
    rcases hnone with hs | ht
    · simp [hs]
    · cases hs : g.node? e.source <;> simp [ht]

/-- `Graph.unlink` takes each end out of the other's link set, whichever of the two exist. -/
theorem node?_unlink (g : Graph) (e : Edge) (n : String) :
    (g.unlink e).value.node? n =
      (g.node? n).map fun node =>
        let node := if n = e.source then node.removeDependency e.target else node
        if n = e.target then node.removeDependent e.source else node := by
  show ((g.nodes.modify _ _).modify _ _).get? n = (g.nodes.get? n).map _
  rw [OrderedMap.get?_modify, OrderedMap.get?_modify]
  split_ifs <;> cases g.nodes.get? n <;> rfl

/-- `Graph.link` changes nothing but link sets. -/
theorem sameFrame_link (g : Graph) (e : Edge) : SameFrame (g.link e).value g where
  names := by
    unfold link
    cases g.node? e.source <;> cases g.node? e.target <;> simp [names]
  edges := by
    unfold link
    cases g.node? e.source <;> cases g.node? e.target <;> rfl
  mark? := by
    intro n
    rw [Graph.mark?, node?_link, Graph.mark?]
    split_ifs <;> cases g.node? n <;> rfl
  journal := by
    unfold link
    cases g.node? e.source <;> cases g.node? e.target <;> rfl
  clock := by
    unfold link
    cases g.node? e.source <;> cases g.node? e.target <;> rfl

/-- `Graph.unlink` changes nothing but link sets. -/
theorem sameFrame_unlink (g : Graph) (e : Edge) : SameFrame (g.unlink e).value g where
  names := by simp [unlink, names]
  edges := rfl
  mark? := by
    intro n
    rw [Graph.mark?, node?_unlink, Graph.mark?]
    split_ifs <;> cases g.node? n <;> rfl
  journal := rfl
  clock := rfl

/-- What single steps leave alone, a run of them leaves alone. -/
theorem sameFrame_foldlM {f : Graph → Edge → Traced LinkSignal Graph}
    (hf : ∀ g e, SameFrame (f g e).value g) (es : List Edge) (g : Graph) :
    SameFrame (es.foldlM f g).value g := by
  induction es generalizing g with
  | nil => exact SameFrame.refl g
  | cons e es ih => exact (ih (f g e).value).trans (hf g e)

/-- `Graph.link` appends the target to the dependencies of the source when both ends exist and it is not there
yet. -/
theorem dependenciesOf_link (g : Graph) (e : Edge) (n : String) :
    (g.link e).value.dependenciesOf n =
      if n = e.source ∧ e.source ∈ g.names ∧ e.target ∈ g.names ∧ e.target ∉ g.dependenciesOf n then
        g.dependenciesOf n ++ [e.target]
      else g.dependenciesOf n := by
  unfold dependenciesOf
  rw [node?_link]
  by_cases hends : e.source ∈ g.names ∧ e.target ∈ g.names
  · rw [if_pos hends]
    cases hnode : g.node? n with
    | none =>
      rw [if_neg fun ⟨hn, _⟩ => node?_eq_none.1 hnode (hn ▸ hends.1)]
      rfl
    | some node =>
      simp only [Option.map_some, Option.getD_some, apply_ite Node.dependencies,
        Node.dependencies_addDependent, Node.dependencies_addDependency, ite_self]
      by_cases hn : n = e.source
      · simp only [hn, hends.1, hends.2, true_and, if_true, OrderedSet.toList_insert,
          OrderedSet.mem_def, ite_not]
      · simp only [hn, false_and, if_false]
  · rw [if_neg hends, if_neg fun hc => hends ⟨hc.2.1, hc.2.2.1⟩]

/-- `Graph.link` appends the source to the dependents of the target when both ends exist and it is not there
yet. -/
theorem dependentsOf_link (g : Graph) (e : Edge) (n : String) :
    (g.link e).value.dependentsOf n =
      if n = e.target ∧ e.source ∈ g.names ∧ e.target ∈ g.names ∧ e.source ∉ g.dependentsOf n then
        g.dependentsOf n ++ [e.source]
      else g.dependentsOf n := by
  unfold dependentsOf
  rw [node?_link]
  by_cases hends : e.source ∈ g.names ∧ e.target ∈ g.names
  · rw [if_pos hends]
    cases hnode : g.node? n with
    | none =>
      rw [if_neg fun ⟨hn, _⟩ => node?_eq_none.1 hnode (hn ▸ hends.2)]
      rfl
    | some node =>
      simp only [Option.map_some, Option.getD_some, apply_ite Node.dependents,
        Node.dependents_addDependent, Node.dependents_addDependency, ite_self]
      by_cases hn : n = e.target
      · simp only [hn, hends.1, hends.2, true_and, if_true, OrderedSet.toList_insert,
          OrderedSet.mem_def, ite_not]
      · simp only [hn, false_and, if_false]
  · rw [if_neg hends, if_neg fun hc => hends ⟨hc.2.1, hc.2.2.1⟩]

/-- `Graph.unlink` filters the target out of the dependencies of the source. -/
theorem dependenciesOf_unlink (g : Graph) (e : Edge) (n : String) :
    (g.unlink e).value.dependenciesOf n = (g.dependenciesOf n).filter fun t => ⟨n, t⟩ ≠ e := by
  obtain ⟨a, b⟩ := e
  unfold dependenciesOf
  rw [node?_unlink]
  cases g.node? n with
  | none => rfl
  | some node =>
    simp only [Option.map_some, Option.getD_some, apply_ite Node.dependencies,
      Node.dependencies_removeDependent, Node.dependencies_removeDependency, ite_self]
    by_cases hn : n = a <;> simp [hn]

/-- `Graph.unlink` filters the source out of the dependents of the target. -/
theorem dependentsOf_unlink (g : Graph) (e : Edge) (n : String) :
    (g.unlink e).value.dependentsOf n = (g.dependentsOf n).filter fun f => ⟨f, n⟩ ≠ e := by
  obtain ⟨a, b⟩ := e
  unfold dependentsOf
  rw [node?_unlink]
  cases g.node? n with
  | none => rfl
  | some node =>
    simp only [Option.map_some, Option.getD_some, apply_ite Node.dependents,
      Node.dependents_removeDependent, Node.dependents_removeDependency, ite_self]
    by_cases hn : n = b <;> simp [hn]

/-! ## Runs of links -/

/-- `DependsIn` through a list of edges is `DependsIn` through its head or through its tail. -/
theorem dependsIn_cons {nodes : List String} (e : Edge) (es : List Edge) {a b : String} :
    DependsIn nodes (e :: es) a b ↔ DependsIn nodes [e] a b ∨ DependsIn nodes es a b := by
  simp only [DependsIn, List.mem_cons, List.not_mem_nil, or_false, or_and_right]

/-- After `Graph.link` a node depends on what it did and on what the edge adds between existing ends. -/
theorem mem_dependenciesOf_link (g : Graph) (e : Edge) (n t : String) :
    t ∈ (g.link e).value.dependenciesOf n ↔ t ∈ g.dependenciesOf n ∨ DependsIn g.names [e] n t := by
  obtain ⟨a, b⟩ := e
  simp only [dependenciesOf_link, DependsIn, List.mem_singleton, Edge.mk.injEq]
  split_ifs with hnew
  · -- The link is new and goes to the end.
    obtain ⟨rfl, ha, hb, -⟩ := hnew
    rw [List.mem_append, List.mem_singleton]
    exact or_congr_right ⟨fun ht => ⟨⟨rfl, ht⟩, ha, ht ▸ hb⟩, fun ht => ht.1.2⟩
  · refine ⟨Or.inl, fun ht => ht.elim id ?_⟩
    -- Both ends exist, so the only way not to be new is to be linked already.
    rintro ⟨⟨rfl, rfl⟩, ha, hb⟩
    exact not_not.1 fun hfresh => hnew ⟨rfl, ha, hb, hfresh⟩

/-- After `Graph.link` the dependents of a node are the old ones and what the edge adds between existing ends.
-/
theorem mem_dependentsOf_link (g : Graph) (e : Edge) (n f : String) :
    f ∈ (g.link e).value.dependentsOf n ↔ f ∈ g.dependentsOf n ∨ DependsIn g.names [e] f n := by
  obtain ⟨a, b⟩ := e
  simp only [dependentsOf_link, DependsIn, List.mem_singleton, Edge.mk.injEq]
  split_ifs with hnew
  · obtain ⟨rfl, ha, hb, -⟩ := hnew
    rw [List.mem_append, List.mem_singleton]
    exact or_congr_right ⟨fun hf => ⟨⟨hf, rfl⟩, hf ▸ ha, hb⟩, fun hf => hf.1.1⟩
  · refine ⟨Or.inl, fun hf => hf.elim id ?_⟩
    rintro ⟨⟨rfl, rfl⟩, ha, hb⟩
    exact not_not.1 fun hfresh => hnew ⟨rfl, ha, hb, hfresh⟩

/-- Linking a list of edges adds to the dependencies exactly what the list gives between existing ends. -/
theorem mem_dependenciesOf_linkAll (es : List Edge) (g : Graph) (n t : String) :
    t ∈ (es.foldlM link g).value.dependenciesOf n ↔
      t ∈ g.dependenciesOf n ∨ DependsIn g.names es n t := by
  induction es generalizing g with
  | nil => simp [DependsIn]
  | cons e es ih =>
    rw [List.foldlM_cons, Traced.value_bind, ih, mem_dependenciesOf_link,
      (sameFrame_link g e).names, dependsIn_cons e es, or_assoc]

/-- Linking a list of edges adds to the dependents exactly what the list gives between existing ends. -/
theorem mem_dependentsOf_linkAll (es : List Edge) (g : Graph) (n f : String) :
    f ∈ (es.foldlM link g).value.dependentsOf n ↔
      f ∈ g.dependentsOf n ∨ DependsIn g.names es f n := by
  induction es generalizing g with
  | nil => simp [DependsIn]
  | cons e es ih =>
    rw [List.foldlM_cons, Traced.value_bind, ih, mem_dependentsOf_link,
      (sameFrame_link g e).names, dependsIn_cons e es, or_assoc]

/-- Unlinking a list of edges filters them out of every dependency list. -/
theorem dependenciesOf_unlinkAll (es : List Edge) (g : Graph) (n : String) :
    (es.foldlM unlink g).value.dependenciesOf n = (g.dependenciesOf n).filter fun t => ⟨n, t⟩ ∉ es := by
  induction es generalizing g with
  | nil => simp
  | cons e es ih =>
    rw [List.foldlM_cons, Traced.value_bind, ih, dependenciesOf_unlink, List.filter_filter]
    refine List.filter_congr fun t _ => ?_
    simp [Bool.and_comm]

/-- Unlinking a list of edges filters them out of every dependent list. -/
theorem dependentsOf_unlinkAll (es : List Edge) (g : Graph) (n : String) :
    (es.foldlM unlink g).value.dependentsOf n = (g.dependentsOf n).filter fun f => ⟨f, n⟩ ∉ es := by
  induction es generalizing g with
  | nil => simp
  | cons e es ih =>
    rw [List.foldlM_cons, Traced.value_bind, ih, dependentsOf_unlink, List.filter_filter]
    refine List.filter_congr fun f _ => ?_
    simp [Bool.and_comm]

/-! ## The elementary changes

A node or an edge that comes or goes. Each change is made in two steps, first to the nodes or edges
themselves and then, edge by edge, to the link sets; in between the graph is not well-formed.
-/

/-- The edges at a name are those that have it for an end. -/
theorem mem_edgesAt (hg : g.edges.Indexed) {name : String} {e : Edge} :
    e ∈ g.edgesAt name ↔ e ∈ g.edges.toList ∧ (e.source = name ∨ e.target = name) := by
  rw [edgesAt, List.mem_append, hg.mem_leaving, hg.mem_arriving, and_or_left]

/-- In a graph with sound indexes `Graph.edgesAt` is the part of the stored edges that touches the name. -/
theorem dependsIn_edgesAt (hg : g.edges.Indexed) {nodes : List String} {name a b : String} :
    DependsIn nodes (g.edgesAt name) a b ↔
      DependsIn nodes g.edges.toList a b ∧ (a = name ∨ b = name) := by
  rw [DependsIn, mem_edgesAt hg]
  exact and_right_comm

section Attach

variable (place : Nat) (name : String)

/-- The first step of attaching a node. -/
private theorem node?_insertAt (g : Graph) (node : Node) (n : String) :
    Graph.node? { g with nodes := g.nodes.insertAt place name node } n =
      if n = name then some node else g.node? n := OrderedMap.get?_insertAt ..

/-- `Graph.attach` stores no edge. -/
theorem edges_attach (g : Graph) (node : Node) : (g.attach place name node).value.edges = g.edges :=
  (sameFrame_foldlM sameFrame_link _ _).edges

/-- `Graph.attach` gives the new node its record's flag and stamp and leaves every other mark. -/
theorem mark?_attach (g : Graph) (node : Node) (n : String) :
    (g.attach place name node).value.mark? n =
      if n = name then some (node.dirty, node.stamp) else g.mark? n := by
  rw [attach, (sameFrame_foldlM sameFrame_link _ _).mark?, mark?, node?_insertAt]
  split_ifs <;> rfl

/-- After `Graph.attach` the names are the old ones and the one attached. -/
theorem mem_names_attach (g : Graph) (node : Node) {n : String} :
    n ∈ (g.attach place name node).value.names ↔ n ∈ g.names ∨ n = name := by
  rw [attach, (sameFrame_foldlM sameFrame_link _ _).names, mem_names_iff, node?_insertAt,
    mem_names_iff]
  split_ifs with hn <;> simp [hn]

/-- A new node takes its place in the order and keeps the order of the others. -/
theorem names_attach {g : Graph} (hname : name ∉ g.names) (node : Node) :
    (g.attach place name node).value.names = g.names.take place ++ name :: g.names.drop place := by
  rw [attach, (sameFrame_foldlM sameFrame_link _ _).names]
  exact OrderedMap.keys_insertAt_of_not_mem hname place node

/-- Attaching a node under an existing name keeps the list of names. -/
theorem names_attach_of_mem {g : Graph} (hname : name ∈ g.names) (node : Node) :
    (g.attach place name node).value.names = g.names := by
  rw [attach, (sameFrame_foldlM sameFrame_link _ _).names]
  exact OrderedMap.keys_insertAt_of_mem hname place node

/-- What depends on what once a name is among the nodes: the old links away from the name, and all
edges at the name. -/
private theorem dependsIn_of_new {old new : List String} (hnew : ∀ n, n ∈ new ↔ n ∈ old ∨ n = name)
    (edges : List Edge) {a b x : String} (hx : x = a ∨ x = b) :
    (x ≠ name ∧ DependsIn old edges a b) ∨ (DependsIn new edges a b ∧ (a = name ∨ b = name)) ↔
      DependsIn new edges a b := by
  simp only [DependsIn, hnew]
  rcases hx with rfl | rfl <;> tauto

/-- A node that comes without links is linked with all its edges. -/
theorem WellFormed.attach {g : Graph} (hg : g.WellFormed) (dirty : Bool) (stamp : Stamp) :
    (g.attach place name { dirty, stamp }).value.WellFormed := by
  have hframe := sameFrame_foldlM sameFrame_link (g.edgesAt name)
    { g with nodes := g.nodes.insertAt place name { dirty, stamp } }
  have hnew := fun n => mem_names_attach place name g { dirty, stamp } (n := n)
  have hedges := edges_attach place name g { dirty, stamp }
  refine ⟨hedges ▸ hg.indexed, fun n t => ?_, fun n f => ?_⟩
  · have hold : t ∈ Graph.dependenciesOf
        { g with nodes := g.nodes.insertAt place name { dirty, stamp } } n ↔
        n ≠ name ∧ g.Depends n t := by
      rw [← hg.mem_dependenciesOf, dependenciesOf, node?_insertAt, dependenciesOf]
      split_ifs with hn <;> simp [hn]
    refine (mem_dependenciesOf_linkAll _ _ n t).trans ?_
    rw [hold, ← hframe.names, dependsIn_edgesAt hg.indexed, Depends, Depends, hedges]
    exact dependsIn_of_new name hnew _ (Or.inl rfl)
  · have hold : f ∈ Graph.dependentsOf
        { g with nodes := g.nodes.insertAt place name { dirty, stamp } } n ↔
        n ≠ name ∧ g.Depends f n := by
      rw [← hg.mem_dependentsOf, dependentsOf, node?_insertAt, dependentsOf]
      split_ifs with hn <;> simp [hn]
    refine (mem_dependentsOf_linkAll _ _ n f).trans ?_
    rw [hold, ← hframe.names, dependsIn_edgesAt hg.indexed, Depends, Depends, hedges]
    exact dependsIn_of_new name hnew _ (Or.inr rfl)

end Attach

section Detach

variable (name : String)

/-- Detaching takes the node out first, whether there is one or not, and then unlinks its edges. -/
theorem detach_eq {g : Graph} (hname : name ∈ g.names) :
    g.detach name = (g.edgesAt name).foldlM unlink { g with nodes := g.nodes.erase name } := by
  rw [detach, if_pos (hasNode_iff.2 hname)]

/-- Detaching a missing node changes nothing and signals nothing. -/
theorem detach_of_not_mem {g : Graph} (hname : name ∉ g.names) : g.detach name = pure g := by
  rw [detach, if_neg fun h => hname (hasNode_iff.1 h)]

/-- Erasing a name from the node map hides that node alone. -/
private theorem node?_erase (g : Graph) (n : String) :
    Graph.node? { g with nodes := g.nodes.erase name } n =
      if n = name then none else g.node? n := OrderedMap.get?_erase ..

/-- `Graph.detach` leaves the stored edges: they wait for the node to come back. -/
theorem edges_detach (g : Graph) : (g.detach name).value.edges = g.edges := by
  by_cases hname : name ∈ g.names
  · rw [detach_eq name hname, (sameFrame_foldlM sameFrame_unlink _ _).edges]
  · rw [detach_of_not_mem name hname]
    rfl

/-- `Graph.detach` forgets the mark of the node it takes and of no other. -/
theorem mark?_detach (g : Graph) (n : String) :
    (g.detach name).value.mark? n = if n = name then none else g.mark? n := by
  by_cases hname : name ∈ g.names
  · rw [detach_eq name hname, (sameFrame_foldlM sameFrame_unlink _ _).mark?, mark?, node?_erase]
    split_ifs <;> rfl
  · rw [detach_of_not_mem name hname, Traced.value_pure]
    split_ifs with hn
    · rw [mark?_eq_none, hn]
      exact hname
    · rfl

/-- `Graph.detach` takes one name out and keeps the order of the others. -/
theorem names_detach (g : Graph) : (g.detach name).value.names = g.names.filter (· ≠ name) := by
  by_cases hname : name ∈ g.names
  · rw [detach_eq name hname, (sameFrame_foldlM sameFrame_unlink _ _).names]
    exact OrderedMap.keys_erase ..
  · rw [detach_of_not_mem name hname, Traced.value_pure, eq_comm, List.filter_eq_self]
    exact fun n hn => by simpa using fun e : n = name => hname (e ▸ hn)

/-- What depends on what once a name is not among the nodes: the old links whose edges are not at the
name. -/
private theorem dependsIn_of_gone {g : Graph} (hg : g.edges.Indexed) {a b x : String}
    (hx : x = a ∨ x = b) :
    (x ≠ name ∧ g.Depends a b) ∧ ⟨a, b⟩ ∉ g.edgesAt name ↔
      DependsIn (g.names.filter (· ≠ name)) g.edges.toList a b := by
  simp only [DependsIn, mem_edgesAt hg, List.mem_filter, decide_eq_true_eq]
  rcases hx with rfl | rfl <;> tauto

/-- When a node goes, its edges are unlinked at their other ends. -/
theorem WellFormed.detach {g : Graph} (hg : g.WellFormed) : (g.detach name).value.WellFormed := by
  by_cases hname : name ∈ g.names
  · have hnames := names_detach name g
    have hedges := edges_detach name g
    refine ⟨hedges ▸ hg.indexed, fun n t => ?_, fun n f => ?_⟩
    · have hold : t ∈ Graph.dependenciesOf { g with nodes := g.nodes.erase name } n ↔
          n ≠ name ∧ g.Depends n t := by
        rw [← hg.mem_dependenciesOf, dependenciesOf, node?_erase, dependenciesOf]
        split_ifs with hn <;> simp [hn]
      rw [Depends, hnames, hedges, detach_eq name hname, dependenciesOf_unlinkAll, List.mem_filter,
        hold, decide_eq_true_eq]
      exact dependsIn_of_gone name hg.indexed (Or.inl rfl)
    · have hold : f ∈ Graph.dependentsOf { g with nodes := g.nodes.erase name } n ↔
          n ≠ name ∧ g.Depends f n := by
        rw [← hg.mem_dependentsOf, dependentsOf, node?_erase, dependentsOf]
        split_ifs with hn <;> simp [hn]
      rw [Depends, hnames, hedges, detach_eq name hname, dependentsOf_unlinkAll, List.mem_filter,
        hold, decide_eq_true_eq]
      exact dependsIn_of_gone name hg.indexed (Or.inr rfl)
  · rwa [detach_of_not_mem name hname]

end Detach

section Edges

variable (e : Edge)

/-- Store an edge and link it. -/
def storeEdge (g : Graph) : Traced LinkSignal Graph :=
  link { g with edges := (g.edges.insert e).1 } e

/-- Drop an edge and unlink it. -/
def dropEdge (g : Graph) : Traced LinkSignal Graph :=
  unlink { g with edges := (g.edges.erase e).1 } e

/-- `Graph.storeEdge` stores the edge and otherwise changes nothing but link sets. -/
theorem sameFrame_storeEdge (g : Graph) :
    SameFrame (g.storeEdge e).value { g with edges := (g.edges.insert e).1 } := sameFrame_link _ e

/-- `Graph.dropEdge` erases the edge and otherwise changes nothing but link sets. -/
theorem sameFrame_dropEdge (g : Graph) :
    SameFrame (g.dropEdge e).value { g with edges := (g.edges.erase e).1 } := sameFrame_unlink _ e

theorem names_storeEdge (g : Graph) : (g.storeEdge e).value.names = g.names :=
  (sameFrame_storeEdge e g).names

theorem names_dropEdge (g : Graph) : (g.dropEdge e).value.names = g.names :=
  (sameFrame_dropEdge e g).names

theorem mark?_storeEdge (g : Graph) (n : String) : (g.storeEdge e).value.mark? n = g.mark? n :=
  (sameFrame_storeEdge e g).mark? n

theorem mark?_dropEdge (g : Graph) (n : String) : (g.dropEdge e).value.mark? n = g.mark? n :=
  (sameFrame_dropEdge e g).mark? n

/-- After `Graph.storeEdge` the stored edges are the old ones and the one given. -/
theorem mem_edges_storeEdge (g : Graph) (f : Edge) :
    f ∈ (g.storeEdge e).value.edges.toList ↔ f ∈ g.edges.toList ∨ f = e := by
  rw [(sameFrame_storeEdge e g).edges]
  exact EdgeStore.mem_insert

/-- After `Graph.dropEdge` the stored edges are the old ones without the one given. -/
theorem mem_edges_dropEdge (g : Graph) (f : Edge) :
    f ∈ (g.dropEdge e).value.edges.toList ↔ f ∈ g.edges.toList ∧ f ≠ e := by
  rw [(sameFrame_dropEdge e g).edges]
  exact EdgeStore.mem_erase

/-- An edge that comes links its ends if both exist. -/
theorem WellFormed.storeEdge {g : Graph} (hg : g.WellFormed) : (g.storeEdge e).value.WellFormed := by
  refine ⟨by rw [(sameFrame_storeEdge e g).edges]; exact hg.indexed.insert e, fun n t => ?_,
    fun n f => ?_⟩
  · rw [Graph.storeEdge, mem_dependenciesOf_link, ← Graph.storeEdge]
    refine (or_congr_left (hg.mem_dependenciesOf n t)).trans ?_
    simp only [DependsIn, names_storeEdge, mem_edges_storeEdge, List.mem_singleton, or_and_right]
    rfl
  · rw [Graph.storeEdge, mem_dependentsOf_link, ← Graph.storeEdge]
    refine (or_congr_left (hg.mem_dependentsOf n f)).trans ?_
    simp only [DependsIn, names_storeEdge, mem_edges_storeEdge, List.mem_singleton, or_and_right]
    rfl

/-- An edge that goes is unlinked. -/
theorem WellFormed.dropEdge {g : Graph} (hg : g.WellFormed) : (g.dropEdge e).value.WellFormed := by
  refine ⟨by rw [(sameFrame_dropEdge e g).edges]; exact hg.indexed.erase e, fun n t => ?_,
    fun n f => ?_⟩
  · rw [Graph.dropEdge, dependenciesOf_unlink, ← Graph.dropEdge, List.mem_filter, decide_eq_true_eq]
    refine (and_congr_left' (hg.mem_dependenciesOf n t)).trans ?_
    simp only [DependsIn, names_dropEdge, mem_edges_dropEdge, and_right_comm]
  · rw [Graph.dropEdge, dependentsOf_unlink, ← Graph.dropEdge, List.mem_filter, decide_eq_true_eq]
    refine (and_congr_left' (hg.mem_dependentsOf n f)).trans ?_
    simp only [DependsIn, names_dropEdge, mem_edges_dropEdge, and_right_comm]

end Edges

/-- The empty graph is `WellFormed`. -/
theorem wellFormed_empty : ({} : Graph).WellFormed where
  indexed := EdgeStore.indexed_empty
  mem_dependenciesOf := fun _ _ => by simp [DependsIn, names, dependenciesOf, node?]
  mem_dependentsOf := fun _ _ => by simp [DependsIn, names, dependentsOf, node?]

end Recalc.Graph
