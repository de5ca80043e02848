import Mathlib.Data.Finite.Defs
import Mathlib.Data.Fintype.Basic
import Mathlib.Data.Set.Finite.Basic
import Mathlib.Logic.Relation
import Mathlib.Order.WellFounded
import Mathlib.Data.List.Chain

/-!
# Walks

The arcs of a successor function, the sets of nodes that no arc leaves, and closed walks. The last
section turns the absence of cycles in a finite digraph into well-founded recursion along its arcs.
-/

namespace Recalc.Digraph

open Relation

variable {α : Type} {next : α → List α}

/-- An arc leads from a node to each of its successors. -/
def Arc (next : α → List α) (a b : α) : Prop := b ∈ next a

/-- No arc leaves the set. -/
def Closed (next : α → List α) (s : List α) : Prop := ∀ a ∈ s, ∀ b, Arc next a b → b ∈ s

/-- What can be reached from a closed set lies in it. -/
theorem Closed.mem_of_reaches {s : List α} (hs : Closed next s) {a b : α} (ha : a ∈ s)
    (hab : ReflTransGen (Arc next) a b) : b ∈ s := by
  induction hab with
  | refl => exact ha
  | tail _ hbc ih => exact hs _ ih _ hbc

/-- A cycle as a list: it starts and ends on the same node, repeats no other, and follows the
arcs. -/
def IsCycle (next : α → List α) (walk : List α) : Prop :=
  ∃ a inner, walk = a :: inner ++ [a] ∧ (a :: inner).Nodup ∧ walk.IsChain (Arc next)

/-- A node is reached, in at least one step, by every later node of a walk. -/
theorem transGen_of_isChain {r : α → α → Prop} {a b : α} {inner : List α}
    (h : (a :: inner ++ [b]).IsChain r) : TransGen r a b := by
  induction inner generalizing a with
  | nil => exact TransGen.single (by simpa using h)
  | cons c inner ih =>
    have h' : r a c ∧ (c :: inner ++ [b]).IsChain r := by simpa using h
    exact TransGen.head h'.1 (ih h'.2)

/-- Some node of a cycle reaches itself. -/
theorem IsCycle.exists_transGen {walk : List α} (h : IsCycle next walk) :
    ∃ a, TransGen (Arc next) a a := by
  obtain ⟨a, inner, rfl, -, hchain⟩ := h
  exact ⟨a, transGen_of_isChain hchain⟩

/-! ## Recursion along the arcs of a finite digraph -/

/-- If the sources of a relation are finitely many and it has no cycle, one can recurse along it. -/
theorem wellFounded_of_acyclic {r : α → α → Prop} (nodes : List α)
    (hnodes : ∀ a b, r a b → a ∈ nodes) (hacyclic : ∀ a, ¬ TransGen r a a) :
    WellFounded fun b a => r a b := by
  -- Paths between two sources never return, so on the finite set of sources they are well-founded.
  let onNodes : {a // a ∈ nodes} → {a // a ∈ nodes} → Prop := fun b a => TransGen r a.1 b.1
  have hfinite : Finite {a // a ∈ nodes} := (List.finite_toSet nodes).to_subtype
  have htrans : IsTrans _ onNodes := ⟨fun a b c hab hbc => TransGen.trans hbc hab⟩
  have hirrefl : Std.Irrefl onNodes := ⟨fun a => hacyclic a.1⟩
  have hwf : WellFounded onNodes := Finite.wellFounded_of_trans_of_irrefl onNodes
  have hacc : ∀ a : {a // a ∈ nodes}, Acc (fun b a => r a b) a.1 := by
    intro a
    induction a using hwf.induction with
    | _ a ih =>
      refine Acc.intro _ fun b hab => ?_
      by_cases hb : b ∈ nodes
      · exact ih ⟨b, hb⟩ (TransGen.single hab)
      · -- What is no source has no arcs.
        exact Acc.intro _ fun c hbc => absurd (hnodes b c hbc) hb
  refine ⟨fun a => ?_⟩
  by_cases ha : a ∈ nodes
  · exact hacc ⟨a, ha⟩
  · exact Acc.intro _ fun b hab => absurd (hnodes a b hab) ha

end Recalc.Digraph
