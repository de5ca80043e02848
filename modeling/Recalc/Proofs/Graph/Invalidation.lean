import Recalc.Proofs.Graph.Freshness
import Recalc.Proofs.Graph.Session

/-!
# Invalidating with a stack

The nodes to mark can be found with a stack: the name on top is taken off, its node is marked, and those
of its dependents that have not been visited are put on the stack. A name counts as visited only after
that, and nobody looks whether it was visited before, so a name may be on the stack several times, its
node may be marked again, and a node that reads itself comes back once.

All the same the marks end up on what can be reached along dependents (`Underway`). Each visit either is
the first one of a name, or takes an entry of a visited name off the stack and puts none on it, so the
stack runs empty, with cycles or without.
-/

namespace Recalc

open Relation

namespace Graph

variable {g : Graph} {n name : String} {names : List String}

/-! ## Marking a list of nodes -/

/-- The graph with the nodes of some names marked. -/
def withMarks (g : Graph) (names : List String) : Graph :=
  { g with nodes := g.nodes.mapValues fun n node =>
      if n ∈ names then { node with dirty := true } else node }

/-- `Graph.withMarks` sets the flags of the nodes named and changes no other node. -/
theorem node?_withMarks (g : Graph) (names : List String) (n : String) :
    (g.withMarks names).node? n =
      if n ∈ names then (g.node? n).map ({ · with dirty := true }) else g.node? n := by
  show (g.nodes.mapValues _).get? n = _
  rw [OrderedMap.get?_mapValues, node?]
  split_ifs <;> cases g.nodes.get? n <;> rfl

/-- `Graph.withMarks` changes nothing but marks. -/
theorem sameShape_withMarks (g : Graph) (names : List String) : SameShape (g.withMarks names) g :=
  sameShape_mapValues g _ (fun n node => by split_ifs <;> rfl) (fun n node => by split_ifs <;> rfl)
    g.clock

theorem withMarks_nil (g : Graph) : g.withMarks [] = g := by
  unfold withMarks
  rw [OrderedMap.mapValues_eq_self fun n node _ => if_neg List.not_mem_nil]

/-- `Graph.withMarks` depends only on which names are listed. -/
theorem withMarks_congr {names' : List String} (h : ∀ n, n ∈ names ↔ n ∈ names') :
    g.withMarks names = g.withMarks names' := by
  simp only [withMarks, h]

/-- Marking one more node. -/
theorem withMarks_modify (g : Graph) (visited : OrderedSet String) (current : String) :
    { g.withMarks visited.toList with
      nodes := (g.withMarks visited.toList).nodes.modify current ({ · with dirty := true }) } =
      g.withMarks (visited.insert current).toList := by
  simp only [withMarks, OrderedMap.modify, OrderedMap.mapValues_mapValues, ← OrderedSet.mem_def,
    OrderedSet.mem_insert]
  congr
  funext n node
  by_cases hvisited : n ∈ visited
  · simp [hvisited]
  · simp [hvisited]

/-- `Graph.invalidate` of an existing name marks its closure along dependents and answers `true`. -/
theorem invalidate_of_mem (h : name ∈ g.names) :
    g.invalidate name = (g.withMarks (g.dependentClosure [name]), true) :=
  if_pos (hasNode_iff.2 h)

/-- `Graph.invalidate` of a missing name changes nothing and answers `false`. -/
theorem invalidate_of_not_mem (h : name ∉ g.names) : g.invalidate name = (g, false) :=
  if_neg fun hmem => h (hasNode_iff.1 hmem)

/-- Whatever can be reached along dependents of a node is a node. -/
theorem WellFormed.mem_names_of_reached (hg : g.WellFormed) (hname : name ∈ g.names)
    (h : ReflTransGen (Digraph.Arc g.dependentsOf) name n) : n ∈ g.names := by
  induction h with
  | refl => exact hname
  | tail _ hab _ => exact ((hg.mem_dependentsOf _ _).1 hab).2.1

end Graph

/-! ## The stack machine -/

/-- What an invalidation keeps. -/
structure Invalidation where
  /-- The graph, with the marks made so far. -/
  graph : Graph
  /-- The names that were visited. -/
  visited : OrderedSet String := ∅
  /-- The stack, its top first. -/
  pending : List String

namespace Invalidation

/-- Take the top name off the stack; if it has a node, mark that and put those of its dependents on the
stack that have not been visited. -/
def step (m : Invalidation) : Invalidation :=
  match m.pending with
  | [] => m
  | current :: pending =>
    match m.graph.node? current with
    | none => { m with pending }
    | some node =>
      { graph := { m.graph with
          nodes := m.graph.nodes.modify current ({ · with dirty := true }) }
        visited := m.visited.insert current
        pending := (node.dependents.toList.filter (· ∉ m.visited)).reverse ++ pending }

/-- The machine gets from one state to another. -/
def Reaches : Invalidation → Invalidation → Prop := ReflTransGen fun m m' => step m = m'

/-- The nodes that were not visited. -/
def unvisited (m : Invalidation) : List String := m.graph.names.filter (· ∉ m.visited)

/-- The entries of the stack whose names were visited. -/
def repeats (m : Invalidation) : List String := m.pending.filter (· ∈ m.visited)

variable {g : Graph} {name current : String} {m : Invalidation} {pending : List String}

/-- The state of an invalidation between two steps: the visited nodes are marked and their dependents
visited or on the stack, and nothing is there that does not depend on the name. -/
structure Underway (g : Graph) (name : String) (m : Invalidation) : Prop where
  graph : m.graph = g.withMarks m.visited.toList
  start : name ∈ m.visited ∨ name ∈ m.pending
  reached : ∀ a, a ∈ m.visited ∨ a ∈ m.pending → ReflTransGen (Digraph.Arc g.dependentsOf) name a
  expanded : ∀ a ∈ m.visited, ∀ b, Digraph.Arc g.dependentsOf a b → b ∈ m.visited ∨ b ∈ m.pending

/-- An invalidation starts with no node visited and its name alone on the stack. -/
theorem underway_start (g : Graph) (name : String) : Underway g name ⟨g, ∅, [name]⟩ where
  graph := (g.withMarks_nil).symm
  start := Or.inr (List.mem_singleton_self name)
  reached := by
    rintro a (ha | ha)
    · exact absurd ha List.not_mem_nil
    · rw [List.mem_singleton.1 ha]
  expanded := fun a ha => absurd ha List.not_mem_nil

namespace Underway

/-- The name on top of the stack is reached from the start along dependents. -/
theorem reached_top (h : Underway g name m) (hpending : m.pending = current :: pending) :
    ReflTransGen (Digraph.Arc g.dependentsOf) name current := by
  apply h.reached
  simp [hpending]

/-- A step visits the name on top. -/
theorem step_eq (hg : g.WellFormed) (hname : name ∈ g.names) (h : Underway g name m)
    (hpending : m.pending = current :: pending) :
    m.step =
      { graph := g.withMarks (m.visited.insert current).toList
        visited := m.visited.insert current
        pending := ((g.dependentsOf current).filter (· ∉ m.visited)).reverse ++ pending } := by
  have hcurrent := hg.mem_names_of_reached hname (h.reached_top hpending)
  have hshape := g.sameShape_withMarks m.visited.toList
  obtain ⟨node, hnode⟩ := Graph.mem_names_iff.1 (h.graph ▸ hshape.names ▸ hcurrent)
  have hdependents : node.dependents.toList = g.dependentsOf current := by
    rw [← Graph.dependentsOf_of_node? hnode, h.graph, hshape.dependentsOf]
  unfold step
  simp only [hpending, hnode, hdependents, ← Graph.withMarks_modify, ← h.graph]

/-- One step of the stack machine keeps an invalidation `Underway`. -/
theorem step (hg : g.WellFormed) (hname : name ∈ g.names) (h : Underway g name m)
    (hpending : m.pending = current :: pending) : Underway g name m.step := by
  have hentries : ∀ a, a ∈ m.pending ↔ a = current ∨ a ∈ pending := fun a => by
    rw [hpending, List.mem_cons]
  rw [h.step_eq hg hname hpending]
  -- Nothing that was visited or on the stack is lost.
  have hkept : ∀ a, a ∈ m.visited ∨ a ∈ m.pending → a ∈ m.visited.insert current ∨
      a ∈ ((g.dependentsOf current).filter (· ∉ m.visited)).reverse ++ pending := by
    intro a ha
    rw [hentries] at ha
    rw [OrderedSet.mem_insert, List.mem_append]
    tauto
  refine ⟨rfl, hkept name h.start, ?_, ?_⟩
  · intro a ha
    simp only [OrderedSet.mem_insert, List.mem_append, List.mem_reverse, List.mem_filter] at ha
    rcases ha with (ha | rfl) | ⟨ha, -⟩ | ha
    · exact h.reached a (Or.inl ha)
    · exact h.reached_top hpending
    · exact (h.reached_top hpending).tail ha
    · exact h.reached a (Or.inr ((hentries a).2 (Or.inr ha)))
  · intro a ha b hab
    rcases OrderedSet.mem_insert.1 ha with ha | rfl
    · exact hkept b (h.expanded a ha b hab)
    · by_cases hb : b ∈ m.visited
      · exact hkept b (Or.inl hb)
      · refine Or.inr (List.mem_append_left _ (List.mem_reverse.2 (List.mem_filter.2 ⟨hab, ?_⟩)))
        simpa using hb

/-- A step visits one more node, or there is one repetition less on the stack. -/
theorem step_lt (hg : g.WellFormed) (hname : name ∈ g.names) (h : Underway g name m)
    (hpending : m.pending = current :: pending) :
    Prod.Lex (· < ·) (· < ·) (m.step.unvisited.length, m.step.repeats.length)
      (m.unvisited.length, m.repeats.length) := by
  have hcurrent := hg.mem_names_of_reached hname (h.reached_top hpending)
  have hnames : ∀ marked, (g.withMarks marked).names = g.names := fun marked =>
    (g.sameShape_withMarks marked).names
  have hstep := h.step_eq hg hname hpending
  by_cases hvisited : current ∈ m.visited
  · -- Nothing new is visited, and what is put on the stack was not visited.
    rw [OrderedSet.insert_of_mem hvisited] at hstep
    have hunvisited : m.step.unvisited = m.unvisited := by
      rw [hstep, unvisited, unvisited, h.graph]
    have hnew : (((g.dependentsOf current).filter (· ∉ m.visited)).reverse).filter
        (· ∈ m.visited) = [] := by
      rw [List.filter_eq_nil_iff]
      intro a ha
      simpa using (List.mem_filter.1 (List.mem_reverse.1 ha)).2
    have hrepeats : m.repeats = current :: m.step.repeats := by
      rw [hstep, repeats, repeats, hpending, List.filter_cons_of_pos (by simpa using hvisited),
        List.filter_append, hnew, List.nil_append]
    rw [hunvisited, hrepeats]
    exact Prod.Lex.right _ (by simp)
  · apply Prod.Lex.left
    have hsub : m.step.unvisited.Sublist (m.unvisited.filter (· ≠ current)) := by
      rw [hstep, unvisited, unvisited, h.graph, hnames, hnames, List.filter_filter]
      refine List.monotone_filter_right _ fun a ha => ?_
      simp only [decide_eq_true_eq, OrderedSet.mem_insert] at ha
      simp only [Bool.and_eq_true, decide_eq_true_eq]
      tauto
    have hmem : current ∈ m.unvisited := by
      rw [unvisited, h.graph, hnames]
      exact List.mem_filter.2 ⟨hcurrent, by simpa using hvisited⟩
    have hlt : (m.unvisited.filter (· ≠ current)).length < m.unvisited.length :=
      List.length_filter_lt_length_iff_exists.2 ⟨current, hmem, by simp⟩
    have hle := hsub.length_le
    omega

/-- From any state the stack runs empty. -/
theorem exists_reaches (hg : g.WellFormed) (hname : name ∈ g.names) (m : Invalidation)
    (h : Underway g name m) :
    ∃ visited, Underway g name ⟨g.withMarks visited.toList, visited, []⟩ ∧
      m.Reaches ⟨g.withMarks visited.toList, visited, []⟩ :=
  match hpending : m.pending with
  | [] => by
    have hm : m = ⟨g.withMarks m.visited.toList, m.visited, []⟩ := by
      rw [← hpending, ← h.graph]
    exact ⟨m.visited, hm ▸ h, hm ▸ ReflTransGen.refl⟩
  | current :: pending => by
    have hlt := h.step_lt hg hname hpending
    obtain ⟨visited, hend, hreaches⟩ := exists_reaches hg hname m.step (h.step hg hname hpending)
    exact ⟨visited, hend, ReflTransGen.head rfl hreaches⟩
termination_by (m.unvisited.length, m.repeats.length)
decreasing_by exact hlt

/-- When the stack is empty, the visited names are what can be reached. -/
theorem mem_visited_iff {graph : Graph} {visited : OrderedSet String}
    (h : Underway g name ⟨graph, visited, []⟩) (a : String) :
    a ∈ visited ↔ ReflTransGen (Digraph.Arc g.dependentsOf) name a := by
  have hvisited : ∀ b, b ∈ visited ∨ b ∈ ([] : List String) → b ∈ visited := by simp
  constructor
  · exact fun ha => h.reached a (Or.inl ha)
  · intro hreach
    induction hreach with
    | refl => exact hvisited name h.start
    | tail _ hab ih => exact hvisited _ (h.expanded _ ih _ hab)

end Underway

end Invalidation

namespace Graph

variable {g : Graph} {n name : String}

/-- Marks are left on what can be reached along dependents. -/
theorem WellFormed.mem_dependentClosure_iff_reached (hg : g.WellFormed) (hname : name ∈ g.names) :
    n ∈ g.dependentClosure [name] ↔ ReflTransGen (Digraph.Arc g.dependentsOf) name n := by
  rw [hg.mem_dependentClosure, hg.arc_dependentsOf, reflTransGen_swap]
  simp [hname]

/-- Invalidating a node with a stack ends, with the graph that `invalidate` leaves. -/
theorem WellFormed.reaches_invalidate (hg : g.WellFormed) (hname : name ∈ g.names) :
    ∃ visited, Invalidation.Reaches ⟨g, ∅, [name]⟩ ⟨(g.invalidate name).1, visited, []⟩ := by
  obtain ⟨visited, hend, hreaches⟩ :=
    Invalidation.Underway.exists_reaches hg hname _ (Invalidation.underway_start g name)
  have hmarks : g.withMarks visited.toList = g.withMarks (g.dependentClosure [name]) :=
    withMarks_congr fun n =>
      (hend.mem_visited_iff n).trans (hg.mem_dependentClosure_iff_reached hname).symm
  rw [hmarks] at hreaches
  rw [invalidate_of_mem hname]
  exact ⟨visited, hreaches⟩

end Graph

namespace GraphSession

open Recalc.Graph

/-- Whatever was done to a graph, also inside a batch: invalidating an existing name with a stack ends.
It sets the flag of the node and of every node that can be reached from it along dependents, and of no
other; all else stays, the stamps, the links, the nodes and their order, the edges. An unknown name
changes nothing. -/
theorem invalidation_of_commands (commands : List GraphCommand) (name : String) :
    let g := (performAll {} commands).value.graph
    let g' := (g.invalidate name).1
    (name ∈ g.names →
      (∃ visited, Invalidation.Reaches ⟨g, ∅, [name]⟩ ⟨g', visited, []⟩) ∧
      (g.invalidate name).2 = true ∧
      (∀ n, ReflTransGen (Digraph.Arc g.dependentsOf) name n →
        ∃ node, g.node? n = some node ∧ g'.node? n = some { node with dirty := true }) ∧
      (∀ n, ¬ ReflTransGen (Digraph.Arc g.dependentsOf) name n → g'.node? n = g.node? n) ∧
      g'.names = g.names ∧ g'.edges = g.edges ∧ g'.journal = g.journal ∧ g'.clock = g.clock) ∧
    (name ∉ g.names → g.invalidate name = (g, false)) := by
  intro g g'
  have hg : g.WellFormed := (sound_of_commands commands).wellFormed
  refine ⟨fun hname => ?_, invalidate_of_not_mem⟩
  have hshape := sameShape_invalidate g name
  have hnode : ∀ n, g'.node? n = if n ∈ g.dependentClosure [name] then
      (g.node? n).map ({ · with dirty := true }) else g.node? n := fun n => by
    show (g.invalidate name).1.node? n = _
    rw [invalidate_of_mem hname]
    exact node?_withMarks g _ n
  refine ⟨hg.reaches_invalidate hname, by rw [invalidate_of_mem hname], fun n hn => ?_,
    fun n hn => ?_, hshape.names, hshape.edges, hshape.journal, clock_invalidate g name⟩
  · obtain ⟨node, hsome⟩ := mem_names_iff.1 (hg.mem_names_of_reached hname hn)
    refine ⟨node, hsome, ?_⟩
    rw [hnode, if_pos ((hg.mem_dependentClosure_iff_reached hname).2 hn), hsome]
    rfl
  · rw [hnode, if_neg fun hmem => hn ((hg.mem_dependentClosure_iff_reached hname).1 hmem)]

/-- A circle of two nodes, one of which reads itself as well, one behind the circle and one before it;
all of them are clean, and a batch is open. -/
def knot : List GraphCommand :=
  [.beginBatch, .addNodes ["d", "a", "b", "c"],
    .addEdges [⟨"a", "b"⟩, ⟨"b", "a"⟩, ⟨"a", "a"⟩, ⟨"c", "b"⟩, ⟨"a", "d"⟩],
    .markClean "a", .markClean "b", .markClean "c", .markClean "d"]

/-- The marks go around the circle and on to what is behind it. -/
theorem invalidation_of_commands_knot :
    let g := (performAll {} knot).value.graph
    let g' := (g.invalidate "a").1
    g.inBatch = true ∧ (["d", "a", "b", "c"].filter g.isDirty) = [] ∧
      (∃ visited, Invalidation.Reaches ⟨g, ∅, ["a"]⟩ ⟨g', visited, []⟩) ∧
      (∃ node, g.node? "c" = some node ∧ g'.node? "c" = some { node with dirty := true }) ∧
      (["d", "a", "b", "c"].filter g'.isDirty) = ["a", "b", "c"] ∧
      g.invalidate "x" = (g, false) := by
  intro g g'
  obtain ⟨hreaches, -, hmarked, -⟩ := (invalidation_of_commands knot "a").1 (by decide)
  have hab : "b" ∈ g.dependentsOf "a" := by decide
  have hbc : "c" ∈ g.dependentsOf "b" := by decide
  exact ⟨by decide, by decide, hreaches, hmarked "c" (.tail (.single hab) hbc), by decide,
    (invalidation_of_commands knot "x").2 (by decide)⟩

end GraphSession

end Recalc
