import Recalc.Digraph.Closure
import Recalc.Proofs.Digraph.Closure

/-!
# The closure with a careless queue

The closure can also be found with a queue that repeats nodes: every seed is queued as it comes, and a
node that is finished queues each of its successors that is not finished, queued already or not. A node
that is finished by the time it comes up is skipped.

Without its repetitions, the list of the finished and the queued nodes is the same as that of `closure`,
where a node is queued once. So the flood makes the same steps, with idle ones in between, and as it
skips one entry of the queue in each idle step, it ends as well.
-/

namespace Recalc

namespace OrderedSet

variable {α : Type} [DecidableEq α]

/-- The set of two lists is that of the first one, into which the elements of the second one are inserted. -/
theorem ofList_append (as bs : List α) : ofList (as ++ bs) = bs.foldl insert (ofList as) :=
  List.foldl_append

/-- What is there already makes no difference. -/
theorem ofList_append_cons_of_mem {as bs : List α} {a : α} (ha : a ∈ as) :
    ofList (as ++ a :: bs) = ofList (as ++ bs) := by
  rw [ofList_append, List.foldl_cons, insert_of_mem (mem_ofList.2 ha), ofList_append]

/-- Inserting different elements adds those that are new at the end. -/
theorem toList_foldl_insert {as : List α} (hnodup : as.Nodup) (s : OrderedSet α) :
    (as.foldl insert s).toList = s.toList ++ as.filter (· ∉ s.toList) := by
  induction as generalizing s with
  | nil => simp
  | cons a as ih =>
    rw [List.nodup_cons] at hnodup
    rw [List.foldl_cons, ih hnodup.2]
    by_cases ha : a ∈ s
    · have ha' : a ∈ s.toList := ha
      rw [insert_of_mem ha, List.filter_cons_of_neg (by simpa using ha')]
    · have ha' : a ∉ s.toList := ha
      -- None of the elements to come is the one that was added.
      have hrest : as.filter (· ∉ s.toList ++ [a]) = as.filter (· ∉ s.toList) := by
        refine List.filter_congr fun b hb => ?_
        have hba : b ≠ a := ne_of_mem_of_not_mem hb hnodup.1
        simp [hba]
      rw [toList_insert_of_not_mem ha, hrest, List.filter_cons_of_pos (by simpa using ha'),
        List.append_assoc, List.singleton_append]

/-- A list without repetition is the list of its set. -/
theorem toList_ofList_of_nodup {as : List α} (hnodup : as.Nodup) : (ofList as).toList = as := by
  rw [ofList, toList_foldl_insert hnodup]
  simp

/-- Inserting never changes the beginning. -/
theorem exists_toList_foldl_insert (as : List α) (s : OrderedSet α) :
    ∃ new, (as.foldl insert s).toList = s.toList ++ new := by
  induction as generalizing s with
  | nil => exact ⟨[], (List.append_nil _).symm⟩
  | cons a as ih =>
    obtain ⟨new, hnew⟩ := ih (s.insert a)
    rw [List.foldl_cons, hnew, toList_insert]
    split_ifs
    · exact ⟨new, rfl⟩
    · exact ⟨a :: new, by rw [List.append_assoc, List.singleton_append]⟩

/-- A new element comes right after those that were there. -/
theorem head_of_ofList_append_cons {as bs cs : List α} {a b : α} (has : as.Nodup) (ha : a ∉ as)
    (h : (ofList (as ++ a :: bs)).toList = as ++ b :: cs) : a = b := by
  have hinsert : ((ofList as).insert a).toList = as ++ [a] := by
    rw [toList_insert_of_not_mem fun hmem => ha (mem_ofList.1 hmem), toList_ofList_of_nodup has]
  obtain ⟨new, hnew⟩ := exists_toList_foldl_insert bs ((ofList as).insert a)
  rw [ofList_append, List.foldl_cons, hnew, hinsert, List.append_assoc, List.append_right_inj] at h
  exact (List.cons.inj h).1

end OrderedSet

namespace Digraph

open Relation

variable {α : Type} [DecidableEq α]

/-- What the flood keeps. -/
structure Flood (α : Type) where
  /-- The finished nodes, oldest first. -/
  closure : List α
  /-- The nodes to come, oldest first, some of them finished or repeated. -/
  queue : List α

namespace Flood

/-- Take the oldest node off the queue; finish it and queue its unfinished successors, unless it is
finished. -/
def step (next : α → List α) (f : Flood α) : Flood α :=
  match f.queue with
  | [] => f
  | a :: queue =>
    if a ∈ f.closure then { f with queue }
    else
      let closure := f.closure ++ [a]
      { closure, queue := queue ++ (next a).filter (· ∉ closure) }

/-- The flood gets from one state to another. -/
def Reaches (next : α → List α) : Flood α → Flood α → Prop :=
  ReflTransGen fun f f' => step next f = f'

variable {next : α → List α} {nodes seeds finished queue careless : List α} {a : α}

/-- A queue of finished nodes is skipped. -/
theorem reaches_of_finished (h : ∀ a ∈ careless, a ∈ finished) :
    Reaches next ⟨finished, careless⟩ ⟨finished, []⟩ := by
  induction careless with
  | nil => exact ReflTransGen.refl
  | cons a careless ih =>
    have hskip : step next ⟨finished, a :: careless⟩ = ⟨finished, careless⟩ :=
      if_pos (h a List.mem_cons_self)
    exact ReflTransGen.head hskip (ih fun b hb => h b (List.mem_cons_of_mem a hb))

/-- The flood comes to the oldest node that is not finished, and the rest of the queue stays. -/
theorem reaches_head (next : α → List α) (hfinished : finished.Nodup)
    (h : (OrderedSet.ofList (finished ++ careless)).toList = finished ++ a :: queue) :
    ∃ rest, Reaches next ⟨finished, careless⟩ ⟨finished, a :: rest⟩ ∧
      (OrderedSet.ofList (finished ++ a :: rest)).toList = finished ++ a :: queue := by
  induction careless with
  | nil =>
    rw [List.append_nil, OrderedSet.toList_ofList_of_nodup hfinished] at h
    exact absurd (List.self_eq_append_right.1 h) (List.cons_ne_nil a queue)
  | cons b careless ih =>
    by_cases hb : b ∈ finished
    · rw [OrderedSet.ofList_append_cons_of_mem hb] at h
      obtain ⟨rest, hreaches, hrest⟩ := ih h
      have hskip : step next ⟨finished, b :: careless⟩ = ⟨finished, careless⟩ := if_pos hb
      exact ⟨rest, ReflTransGen.head hskip hreaches, hrest⟩
    · obtain rfl := OrderedSet.head_of_ofList_append_cons hfinished hb h
      exact ⟨careless, ReflTransGen.refl, h⟩

/-- The flood passes through the states of the closure and ends with the same nodes. -/
theorem reaches_spread (hnodes : ∀ a b, Arc next a b → b ∈ nodes) (hnext : ∀ a, (next a).Nodup) :
    ∀ (steps : Nat) (finished queue careless : List α), nodes.length ≤ steps + finished.length →
      Spreading next nodes seeds finished queue →
      (OrderedSet.ofList (finished ++ careless)).toList = finished ++ queue →
      Reaches next ⟨finished, careless⟩ ⟨spread next steps finished queue, []⟩
  | steps, finished, [], careless, _, _, hqueue => by
    have hskip : ∀ a ∈ careless, a ∈ finished := fun a ha => by
      have hmem : a ∈ (OrderedSet.ofList (finished ++ careless)).toList :=
        OrderedSet.mem_ofList.2 (List.mem_append_right _ ha)
      rwa [hqueue, List.append_nil] at hmem
    have hspread : spread next steps finished [] = finished := by
      cases steps with
      | zero => exact List.append_nil finished
      | succ steps => rfl
    rw [hspread]
    exact reaches_of_finished hskip
  | 0, finished, a :: queue, careless, hsteps, h, _ =>
    absurd (h.eq_nil_of_length_le (by omega)) (List.cons_ne_nil a queue)
  | steps + 1, finished, a :: queue, careless, hsteps, h, hqueue => by
    have hnodup := List.nodup_append.1 h.nodup
    have hfresh : a ∉ finished := fun hf => hnodup.2.2 a hf a List.mem_cons_self rfl
    obtain ⟨rest, hreaches, hrest⟩ := reaches_head next hnodup.1 hqueue
    have hstep : step next ⟨finished, a :: rest⟩ =
        ⟨finished ++ [a], rest ++ (next a).filter (· ∉ finished ++ [a])⟩ := if_neg hfresh
    -- Of the successors that the flood queues, the closure queues those that are not queued already.
    have hnew : ((next a).filter (· ∉ finished ++ [a])).filter (· ∉ finished ++ a :: queue) =
        (next a).filter (· ∉ finished ++ a :: queue) := by
      rw [List.filter_filter]
      refine List.filter_congr fun b _ => ?_
      simp only [List.mem_append, List.mem_cons, List.not_mem_nil]
      grind
    have hqueue' : (OrderedSet.ofList
        (finished ++ [a] ++ (rest ++ (next a).filter (· ∉ finished ++ [a])))).toList =
        finished ++ [a] ++ (queue ++ (next a).filter (· ∉ finished ++ a :: queue)) := by
      have hlist : finished ++ [a] ++ (rest ++ (next a).filter (· ∉ finished ++ [a])) =
          (finished ++ a :: rest) ++ (next a).filter (· ∉ finished ++ [a]) := by simp
      rw [hlist, OrderedSet.ofList_append, OrderedSet.toList_foldl_insert ((hnext a).filter _), hrest,
        hnew]
      simp
    have hlength : nodes.length ≤ steps + (finished ++ [a]).length := by
      rw [List.length_append, List.length_singleton]
      omega
    have hlater := reaches_spread hnodes hnext steps _ _ _ hlength (h.finish hnodes (hnext a)) hqueue'
    exact hreaches.trans (ReflTransGen.head hstep hlater)

/-- Whatever the digraph and the seeds, the flood ends, and the finished nodes are the closure. -/
theorem reaches_closure {size : Nat} (hnodes : ∀ a b, Arc next a b → b ∈ nodes)
    (hnext : ∀ a, (next a).Nodup) (hsize : nodes.length ≤ size) (hseeds : seeds ⊆ nodes) :
    Reaches next ⟨[], seeds⟩ ⟨Digraph.closure next size seeds, []⟩ :=
  reaches_spread hnodes hnext size [] _ seeds (by simpa using hsize) (spreading_start hseeds) rfl

end Flood

end Digraph

end Recalc
