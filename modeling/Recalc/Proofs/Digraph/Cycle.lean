import Mathlib.Data.List.Perm.Subperm
import Recalc.Digraph.Cycle
import Recalc.Proofs.Digraph.Walk

/-!
# Correctness of the cycle search

The search answers a cycle, and answers none exactly if there is none. What carries the proof is a
property of the finished nodes, `Explored`: no arc leaves them, no cycle runs through them, and none
of them lies on the trail. Finishing a node adds it to the set; the trail itself is a walk, so an arc
back onto it closes a cycle.
-/

namespace Recalc.Digraph

open Relation

variable {α : Type} {next : α → List α}

/-- What the search knows about its finished nodes while it is on a trail. -/
structure Explored (next : α → List α) (trail finished : List α) : Prop where
  closed : Closed next finished
  acyclic : ∀ a ∈ finished, ¬ TransGen (Arc next) a a
  off_trail : ∀ a ∈ trail, a ∉ finished

/-- At the start of the search no node is finished. -/
theorem Explored.empty (trail : List α) : Explored next trail [] where
  closed := fun _ h => absurd h List.not_mem_nil
  acyclic := fun _ h => absurd h List.not_mem_nil
  off_trail := fun _ _ => List.not_mem_nil

/-- A node that is left after all its successors were finished is finished itself. -/
theorem Explored.finish {trail finished : List α} {a : α}
    (h : Explored next (a :: trail) finished) (hnext : ∀ b, Arc next a b → b ∈ finished)
    (ha : a ∉ trail) : Explored next trail (a :: finished) where
  closed := by
    intro b hb c hbc
    rcases List.mem_cons.1 hb with rfl | hb
    · exact List.mem_cons_of_mem _ (hnext c hbc)
    · exact List.mem_cons_of_mem _ (h.closed b hb c hbc)
  acyclic := by
    intro b hb hcycle
    rcases List.mem_cons.1 hb with rfl | hb
    · -- A cycle through the new node would come back to it from a finished node.
      obtain ⟨c, hbc, hcb⟩ := TransGen.head'_iff.1 hcycle
      exact h.off_trail b List.mem_cons_self (h.closed.mem_of_reaches (hnext c hbc) hcb)
    · exact h.acyclic b hb hcycle
  off_trail := by
    intro b hb hmem
    rcases List.mem_cons.1 hmem with rfl | hmem
    · exact ha hb
    · exact h.off_trail b (List.mem_cons_of_mem _ hb) hmem

/-- What exploring some nodes results in: a cycle, or more finished nodes, these among them. -/
def Advances (next : α → List α) (trail finished nodes : List α) :
    Except (List α) (List α) → Prop
  | .error walk => IsCycle next walk
  | .ok finished' => Explored next trail finished' ∧ finished ⊆ finished' ∧ nodes ⊆ finished'

variable [DecidableEq α]

/-- A trail, newest node first, whose newest node steps to one of its own nodes closes a cycle. -/
theorem isCycle_closedWalk {trail : List α} {a : α} (ha : a ∈ trail) (htrail : trail.Nodup)
    (hchain : (a :: trail).IsChain (fun b a => Arc next a b)) : IsCycle next (closedWalk trail a) := by
  obtain ⟨newer, older, rfl, hnewer⟩ := List.eq_append_cons_of_mem ha
  have htake : (newer ++ a :: older).takeWhile (· ≠ a) = newer := by
    rw [List.takeWhile_append_of_pos fun b hb => by
      simpa using fun e : b = a => hnewer (e ▸ hb)]
    simp
  have hwalk : closedWalk (newer ++ a :: older) a = a :: newer.reverse ++ [a] := by
    rw [closedWalk, htake]
  rw [hwalk]
  refine ⟨a, newer.reverse, rfl, ?_, ?_⟩
  · rw [List.nodup_cons, List.mem_reverse, List.nodup_reverse]
    exact ⟨hnewer, (List.nodup_append.1 htrail).1⟩
  · -- The walk is the part of the trail from its newest node back to `a`, reversed.
    have hprefix : (a :: newer ++ [a]).IsChain (fun b a => Arc next a b) :=
      hchain.prefix ⟨older, by simp⟩
    have hreverse : (a :: newer ++ [a]).reverse.IsChain (Arc next) :=
      List.isChain_reverse.2 hprefix
    simpa using hreverse

/-- Exploring some successors of the newest node of the trail, if exploring one of them works. -/
theorem advances_foldlM (depth : Nat) (trail : List α) {P : α → Prop}
    (hone : ∀ finished a, P a → Explored next trail finished →
      Advances next trail finished [a] (explore next depth trail finished a))
    (nodes : List α) (hnodes : ∀ a ∈ nodes, P a) (finished : List α)
    (hfinished : Explored next trail finished) :
    Advances next trail finished nodes (nodes.foldlM (explore next depth trail) finished) := by
  induction nodes generalizing finished with
  | nil => exact ⟨hfinished, List.Subset.refl _, List.nil_subset _⟩
  | cons a nodes ih =>
    -- A cycle found from the first successor is the answer; otherwise the rest starts from what it
    -- finished.
    have ha := hone finished a (hnodes a List.mem_cons_self) hfinished
    rw [List.foldlM_cons]
    cases hexplore : explore next depth trail finished a with
    | error walk =>
      rw [hexplore] at ha
      exact ha
    | ok finished' =>
      rw [hexplore] at ha
      obtain ⟨hfinished', hsub, hmem⟩ := ha
      have hrest := ih (fun b hb => hnodes b (List.mem_cons_of_mem _ hb)) finished' hfinished'
      show Advances next trail finished (a :: nodes)
        (nodes.foldlM (explore next depth trail) finished')
      cases hfold : nodes.foldlM (explore next depth trail) finished' with
      | error walk =>
        rw [hfold] at hrest
        exact hrest
      | ok finished'' =>
        rw [hfold] at hrest
        obtain ⟨hfinished'', hsub', hmem'⟩ := hrest
        refine ⟨hfinished'', List.Subset.trans hsub hsub', List.cons_subset.2 ⟨?_, hmem'⟩⟩
        exact hsub' (hmem List.mem_cons_self)

/-- Exploring a node that the trail leads to, with enough depth for the rest of the nodes. -/
theorem advances_explore {nodes : List α} (hnodes : ∀ a b, Arc next a b → b ∈ nodes) :
    ∀ (depth : Nat) (trail finished : List α) (a : α),
      nodes.length < depth + trail.length → a ∈ nodes → trail ⊆ nodes → trail.Nodup →
      (a :: trail).IsChain (fun b a => Arc next a b) → Explored next trail finished →
      Advances next trail finished [a] (explore next depth trail finished a)
  | 0, trail, _, _, hdepth, _, hsub, hnodup, _, _ => by
    -- The trail repeats no node, so it cannot be as long as this.
    have hle := (hnodup.subperm hsub).length_le
    omega
  | depth + 1, trail, finished, a, hdepth, ha, hsub, hnodup, hchain, hfinished => by
    rw [explore]
    split_ifs with hdone htrail
    · exact ⟨hfinished, List.Subset.refl _, by simpa using hdone⟩
    · exact isCycle_closedWalk htrail hnodup hchain
    · have hstart : Explored next (a :: trail) finished :=
        ⟨hfinished.closed, hfinished.acyclic, fun b hb => by
          rcases List.mem_cons.1 hb with rfl | hb
          · exact hdone
          · exact hfinished.off_trail b hb⟩
      -- The successors are explored along a longer trail, with less depth.
      have hnext := advances_foldlM depth (a :: trail) (P := Arc next a)
        (fun finished b hab hexplored => advances_explore hnodes depth (a :: trail) finished b
          (by rw [List.length_cons]; omega) (hnodes a b hab) (List.cons_subset.2 ⟨ha, hsub⟩)
          (List.nodup_cons.2 ⟨htrail, hnodup⟩) (List.isChain_cons_cons.2 ⟨hab, hchain⟩) hexplored)
        (next a) (fun _ hb => hb) finished hstart
      cases hfold : (next a).foldlM (explore next depth (a :: trail)) finished with
      | error walk =>
        rw [hfold] at hnext
        exact hnext
      | ok finished' =>
        rw [hfold] at hnext
        obtain ⟨hexplored, hgrow, hall⟩ := hnext
        refine ⟨hexplored.finish (fun b hb => hall hb) htrail, ?_, by simp⟩
        exact List.Subset.trans hgrow (List.subset_cons_self a finished')

/-- The search over all nodes: what it answers is a cycle, and it answers if there is one. -/
theorem advances_findCycle {nodes : List α} (hnodes : ∀ a b, Arc next a b → b ∈ nodes) :
    Advances next [] [] nodes (nodes.foldlM (explore next (nodes.length + 1) []) []) :=
  advances_foldlM _ [] (P := (· ∈ nodes))
    (fun finished a ha hfinished => advances_explore hnodes _ [] finished a (by simp) ha
      (List.nil_subset _) List.nodup_nil (List.isChain_singleton a) hfinished)
    nodes (fun _ ha => ha) [] (Explored.empty [])

/-- What the search answers is a cycle. -/
theorem isCycle_of_findCycle? {nodes walk : List α} (hnodes : ∀ a b, Arc next a b → b ∈ nodes)
    (h : findCycle? next nodes = some walk) : IsCycle next walk := by
  have hsearch := advances_findCycle hnodes
  unfold findCycle? at h
  cases hfold : nodes.foldlM (explore next (nodes.length + 1) []) [] with
  | error walk' =>
    rw [hfold] at h hsearch
    cases h
    exact hsearch
  | ok finished =>
    rw [hfold] at h
    cases h

/-- The search answers nothing exactly if no node reaches itself. -/
theorem findCycle?_eq_none_iff {nodes : List α} (hnodes : ∀ a b, Arc next a b → b ∈ nodes) :
    findCycle? next nodes = none ↔ ∀ a, ¬ TransGen (Arc next) a a := by
  constructor
  · intro h a hcycle
    have hsearch := advances_findCycle hnodes
    unfold findCycle? at h
    cases hfold : nodes.foldlM (explore next (nodes.length + 1) []) [] with
    | error walk =>
      rw [hfold] at h
      cases h
    | ok finished =>
      rw [hfold] at hsearch
      obtain ⟨hexplored, -, hall⟩ := hsearch
      -- A node on a cycle is the end of an arc, so it is one of the nodes and was finished.
      obtain ⟨b, -, hba⟩ := TransGen.tail'_iff.1 hcycle
      exact hexplored.acyclic a (hall (hnodes b a hba)) hcycle
  · intro h
    cases hfind : findCycle? next nodes with
    | none => rfl
    | some walk =>
      obtain ⟨a, ha⟩ := (isCycle_of_findCycle? hnodes hfind).exists_transGen
      exact absurd ha (h a)

end Recalc.Digraph
