import Recalc.Proofs.Graph.Staleness

/-!
# Freshness

The mark of a node is its dirty flag and its stamp. A node is fresh if it and everything it reads has
been stamped, and it after all that it reads; a node need not be evaluated exactly if it is fresh
(`needsEvaluation_eq_false_iff`).

What marking does is stated for a list of seeds at once (`Marked`): the nodes that depend, in any
number of steps, on a seed become dirty, and nothing else changes.
-/

namespace Recalc

namespace EdgeStore

/-- Some targets of a source are all of them exactly if they are as many as edges leave it. -/
theorem Indexed.length_eq_outDegree_iff {s : EdgeStore} (h : s.Indexed) {source : String}
    {targets : List String} (hnodup : targets.Nodup) :
    targets.length = s.outDegree source ∧ targets ⊆ s.bySource.find source ↔
      ∀ t, t ∈ targets ↔ ⟨source, t⟩ ∈ s.toList := by
  have hmem : ∀ t, t ∈ s.bySource.find source ↔ ⟨source, t⟩ ∈ s.toList := by
    intro t
    rw [h.bySource.mem_find]
    constructor
    · rintro ⟨⟨a, b⟩, he, rfl, rfl⟩
      exact he
    · intro he
      exact ⟨_, he, rfl, rfl⟩
  have hfind : (s.bySource.find source).Nodup := by
    rw [h.bySource.find_eq]
    refine List.Nodup.map_on ?_ (s.nodup_toList.filter _)
    rintro ⟨a, b⟩ he ⟨c, d⟩ hf rfl
    obtain rfl : a = source := by simpa using (List.mem_filter.1 he).2
    obtain rfl : c = a := by simpa using (List.mem_filter.1 hf).2
    rfl
  constructor
  · rintro ⟨hlength, hsub⟩ t
    rw [← hmem]
    exact ((hnodup.subperm hsub).perm_of_length_le hlength.ge).mem_iff
  · intro hall
    have hperm : targets.Perm (s.bySource.find source) :=
      (List.perm_ext_iff_of_nodup hnodup hfind).2 fun t => (hall t).trans (hmem t).symm
    exact ⟨hperm.length_eq, hperm.subset⟩

end EdgeStore

namespace Graph

open Relation

variable {g g' g'' : Graph}

/-! ## Flags and stamps -/

/-- Whether a node is marked. -/
def isDirty (g : Graph) (n : String) : Bool := (g.mark? n).any (·.1)

/-- The stamp of a node; a missing node was never stamped. -/
def stampOf (g : Graph) (n : String) : Stamp := ((g.mark? n).map (·.2)).getD Stamp.never

/-- Only a node can be dirty. -/
theorem mem_names_of_isDirty {n : String} (h : g.isDirty n = true) : n ∈ g.names := by
  by_contra hn
  rw [isDirty, mark?_eq_none.2 hn] at h
  cases h

/-- Only a node can have a stamp. -/
theorem mem_names_of_stampOf {n : String} (h : 0 < g.stampOf n) : n ∈ g.names := by
  by_contra hn
  rw [stampOf, mark?_eq_none.2 hn] at h
  exact absurd h (lt_irrefl 0)

/-- `Graph.stampOf` reads the stamp off the record of a node. -/
theorem stampOf_of_node? {n : String} {node : Node} (hn : g.node? n = some node) :
    g.stampOf n = node.stamp := by
  rw [stampOf, mark?, hn]
  rfl

/-- Graphs with the same mark at a name agree on whether it is dirty. -/
theorem isDirty_congr {n : String} (h : g'.mark? n = g.mark? n) : g'.isDirty n = g.isDirty n := by
  rw [isDirty, h, isDirty]

/-- Graphs with the same mark at a name agree on its stamp. -/
theorem stampOf_congr {n : String} (h : g'.mark? n = g.mark? n) : g'.stampOf n = g.stampOf n := by
  rw [stampOf, h, stampOf]

/-- After `Graph.markClean` the dirty nodes are the old ones without the one cleaned. -/
theorem isDirty_markClean (g : Graph) (name n : String) :
    (g.markClean name).1.isDirty n = true ↔ g.isDirty n = true ∧ n ≠ name := by
  unfold isDirty
  rw [mark?_markClean]
  split_ifs with hn
  · cases g.mark? n <;> simp [hn]
  · simp [hn]

/-- `Graph.markClean` keeps every stamp. -/
theorem stampOf_markClean (g : Graph) (name n : String) :
    (g.markClean name).1.stampOf n = g.stampOf n := by
  unfold stampOf
  rw [mark?_markClean]
  split_ifs <;> cases g.mark? n <;> rfl

theorem isDirty_touch (g : Graph) (name n : String) :
    (g.touch name).1.isDirty n = g.isDirty n := by
  unfold isDirty
  rw [mark?_touch]
  split_ifs <;> cases g.mark? n <;> rfl

/-- `Graph.touch` keeps the stamps of the other nodes. -/
theorem stampOf_touch_of_ne {name n : String} (hn : n ≠ name) :
    (g.touch name).1.stampOf n = g.stampOf n := by
  apply stampOf_congr
  rw [mark?_touch, if_neg hn]

/-- `Graph.touch` gives an existing node the stamp after the last one issued. -/
theorem stampOf_touch {name : String} (hname : name ∈ g.names) :
    (g.touch name).1.stampOf name = g.clock.last + 1 := by
  obtain ⟨node, hnode⟩ := mem_names_iff.1 hname
  unfold stampOf
  rw [mark?_touch, if_pos rfl, mark?, hnode]
  rfl

/-! ## Freshness -/

/-- The node and everything it reads has been stamped, the node last. -/
def Fresh (g : Graph) (n : String) : Prop :=
  0 < g.stampOf n ∧
    ∀ d, ⟨n, d⟩ ∈ g.edges.toList → 0 < g.stampOf d ∧ g.stampOf d < g.stampOf n

/-- A node need not be evaluated exactly if it is fresh. -/
theorem WellFormed.needsEvaluation_eq_false_iff (hg : g.WellFormed) {n : String}
    (hn : n ∈ g.names) : g.needsEvaluation n = false ↔ g.Fresh n := by
  obtain ⟨node, hnode⟩ := mem_names_iff.1 hn
  have hdeps : ∀ d, d ∈ node.dependencies.toList ↔ g.Depends n d := by
    intro d
    rw [← dependenciesOf_of_node? hnode]
    exact hg.mem_dependenciesOf n d
  have hsub : node.dependencies.toList ⊆ g.edges.bySource.find n := fun d hd =>
    hg.indexed.bySource.mem_find.2 ⟨_, ((hdeps d).1 hd).1, rfl, rfl⟩
  -- The sizes agree exactly if no declared dependency is missing.
  have hsize : node.dependencies.size = g.edges.outDegree n ↔
      ∀ d, ⟨n, d⟩ ∈ g.edges.toList → d ∈ g.names := by
    rw [OrderedSet.size, ← and_iff_left (a := _ = _) hsub,
      hg.indexed.length_eq_outDegree_iff node.dependencies.nodup]
    refine forall_congr' fun d => ?_
    rw [hdeps]
    exact ⟨fun h he => (h.2 he).2.2, fun h => ⟨And.left, fun he => ⟨he, hn, h he⟩⟩⟩
  -- Written out, the check asks for the stamps of the dependencies that are there.
  have hfold : g.needsEvaluation n = false ↔ 0 < node.stamp ∧
      node.dependencies.size = g.edges.outDegree n ∧
        ∀ d, g.Depends n d → 0 < g.stampOf d ∧ g.stampOf d < node.stamp := by
    unfold needsEvaluation
    simp only [hnode, Bool.or_eq_false_iff, beq_eq_false_iff_ne, bne_eq_false_iff_eq,
      List.any_eq_false, hdeps, Stamp.never, ne_eq, ← Nat.pos_iff_ne_zero, and_assoc]
    refine and_congr_right fun _ => and_congr_right fun _ => forall₂_congr fun d hd => ?_
    obtain ⟨dependency, hd'⟩ := mem_names_iff.1 hd.2.2
    rw [hd', stampOf_of_node? hd']
    simp [Nat.pos_iff_ne_zero]
  rw [hfold, hsize, Fresh, stampOf_of_node? hnode]
  refine and_congr_right fun _ => ?_
  constructor
  · rintro ⟨hpresent, hstamps⟩ d he
    exact hstamps d ⟨he, hn, hpresent d he⟩
  · intro h
    exact ⟨fun d he => mem_names_of_stampOf (h d he).1, fun d hd => h d hd.1⟩

/-! ## Marking -/

/-- The second graph is the first one with the nodes marked that depend on a seed. -/
structure Marked (g : Graph) (seeds : List String) (g' : Graph) : Prop where
  shape : SameShape g' g
  clock : g'.clock = g.clock
  stampOf : ∀ n, g'.stampOf n = g.stampOf n
  isDirty_iff : ∀ n, g'.isDirty n = true ↔
    g.isDirty n = true ∨ ∃ m ∈ seeds, m ∈ g.names ∧ ReflTransGen g.Depends n m

namespace Marked

variable {seeds seeds' : List String}

theorem refl (g : Graph) : Marked g [] g :=
  ⟨SameShape.refl g, rfl, fun _ => rfl, fun n => by simp⟩

/-- Marking from some seeds and then from others is marking from all of them. -/
theorem append (h : Marked g seeds g') (h' : Marked g' seeds' g'') :
    Marked g (seeds ++ seeds') g'' where
  shape := h'.shape.trans h.shape
  clock := h'.clock.trans h.clock
  stampOf := fun n => (h'.stampOf n).trans (h.stampOf n)
  isDirty_iff := by
    intro n
    rw [h'.isDirty_iff, h.isDirty_iff, h.shape.depends_eq, h.shape.names, or_assoc]
    simp only [List.mem_append, or_and_right, exists_or]

/-- The seeds are marked. -/
theorem isDirty_of_mem (h : Marked g seeds g') {n : String} (hn : n ∈ seeds)
    (hname : n ∈ g.names) : g'.isDirty n = true :=
  (h.isDirty_iff n).2 (Or.inr ⟨n, hn, hname, ReflTransGen.refl⟩)

/-- Marks spread along dependencies, as far as the old ones did. -/
theorem isDirty_of_depends (h : Marked g seeds g') {n d : String} (hnd : g.Depends n d)
    (hd : g'.isDirty d = true) (hold : g.isDirty d = true → g'.isDirty n = true) :
    g'.isDirty n = true := by
  rcases (h.isDirty_iff d).1 hd with hdirty | ⟨m, hm, hname, hreach⟩
  · exact hold hdirty
  · exact (h.isDirty_iff n).2 (Or.inr ⟨m, hm, hname, ReflTransGen.head hnd hreach⟩)

end Marked

/-- `Graph.invalidate` marks what depends on its name, and nothing if there is no such node. -/
theorem WellFormed.marked_invalidate (hg : g.WellFormed) (name : String) :
    Marked g [name] (g.invalidate name).1 := by
  classical
  by_cases hname : name ∈ g.names
  · refine ⟨sameShape_invalidate g name, clock_invalidate g name, fun n => ?_, fun n => ?_⟩
    · unfold stampOf
      rw [hg.mark?_invalidate hname]
      cases g.mark? n <;> rfl
    · simp only [List.mem_singleton, exists_eq_left, hname, true_and]
      unfold isDirty
      rw [hg.mark?_invalidate hname]
      cases hmark : g.mark? n with
      | none =>
        -- Whatever depends on a node is a node.
        have hn : n ∉ g.names := mark?_eq_none.1 hmark
        have hreach : ¬ ReflTransGen g.Depends n name := fun h => by
          rcases ReflTransGen.cases_head h with rfl | ⟨b, hb, -⟩
          · exact hn hname
          · exact hn hb.2.1
        simp [hreach]
      | some mark => simp
  · have hsame : (g.invalidate name).1 = g := by
      unfold invalidate
      rw [if_neg fun h => hname (hasNode_iff.1 h)]
    rw [hsame]
    refine ⟨SameShape.refl g, rfl, fun _ => rfl, fun n => ?_⟩
    simp [hname]

end Graph

end Recalc
