import Mathlib.Data.List.Perm.Subperm
import Mathlib.Logic.Function.Basic
import Recalc.Digraph.Cycle
import Recalc.Proofs.Digraph.Walk

/-!
# The cycle search as an iteration

The search runs without recursion as well. A stack holds the nodes of the trail, each with a cursor into
its successors; every node that was met carries a mark; and every node that was met from another one
remembers that one as its predecessor, so that a cycle can be read off backwards. One table of marks and
one of predecessors serve all start nodes.

Nothing bounds the number of steps beforehand. But the iteration ends, and it ends with the answer of
`findCycle?` (`reaches_findCycle?`): while a node is explored, the marks and the stack repeat what the
recursion knows (`Tracks`), and the predecessors of the nodes on the trail lead along the trail, whatever
became of those of other nodes. So reading off a cycle ends, too, and never comes to a node without a
predecessor.
-/

namespace Recalc.Digraph

open Relation

variable {α : Type}

/-- How far the iteration is with a node that it met. -/
inductive Mark where
  /-- The node is on the stack. -/
  | visiting
  /-- The node was taken off the stack. -/
  | visited
  deriving DecidableEq

/-- What the iteration keeps while it looks for a cycle. -/
structure Scan (α : Type) where
  /-- The marks of the nodes met so far. -/
  marks : α → Option Mark
  /-- The node that a node was met from. -/
  cameFrom : α → Option α
  /-- The trail, newest node first, with the number of successors that each node is done with. -/
  stack : List (α × Nat)
  /-- The start nodes still to come. -/
  starts : List α

/-- A state of the iteration. -/
inductive Search (α : Type) where
  /-- Looking for an arc back onto the stack. -/
  | scanning (scan : Scan α)
  /-- Reading off the cycle through `goal` backwards; `walk` is to be entered next. -/
  | retracing (cameFrom : α → Option α) (goal walk : α) (path : List α)
  /-- The end, with the answer. -/
  | over (answer : Option (List α))

namespace Search

/-- The iteration begins without marks. -/
def start (nodes : List α) : Search α := .scanning ⟨fun _ => none, fun _ => none, [], nodes⟩

variable [DecidableEq α] (next : α → List α)

/-- A step of the iteration: it turns to the next successor of the node on top of the stack, or to the next
start if the stack is empty, or follows the predecessors one node further back when it has met a cycle. -/
def step : Search α → Search α
  | .scanning c =>
    match c.stack, c.starts with
    | [], [] => .over none
    | [], a :: starts =>
      match c.marks a with
      | some _ => .scanning { c with starts }
      | none =>
        .scanning { c with
          marks := Function.update c.marks a (some .visiting)
          stack := [(a, 0)]
          starts }
    | (a, cursor) :: below, _ =>
      match (next a)[cursor]? with
      | none =>
        .scanning { c with marks := Function.update c.marks a (some .visited), stack := below }
      | some b =>
        match c.marks b with
        | none =>
          .scanning { c with
            marks := Function.update c.marks b (some .visiting)
            cameFrom := Function.update c.cameFrom b (some a)
            stack := (b, 0) :: (a, cursor + 1) :: below }
        | some .visiting => .retracing c.cameFrom b a [b]
        | some .visited => .scanning { c with stack := (a, cursor + 1) :: below }
  | .retracing cameFrom goal walk path =>
    if walk = goal then .over (some (goal :: path))
    else
      match cameFrom walk with
      | some previous => .retracing cameFrom goal previous (walk :: path)
      | none => .over (some (goal :: walk :: path))
  | .over answer => .over answer

/-- The iteration gets from one state to another. -/
def Reaches : Search α → Search α → Prop := ReflTransGen fun s t => step next s = t

end Search

open Search

variable {next : α → List α} {nodes trail finished : List α} {marks : α → Option Mark}
  {cameFrom : α → Option α} {stack : List (α × Nat)} {starts : List α} {a b : α}

/-- The marks tell the nodes of the trail and the finished ones, and the predecessors lead along the
trail, which is given newest node first. -/
structure Tracks (trail finished : List α) (marks : α → Option Mark) (cameFrom : α → Option α) :
    Prop where
  visiting : ∀ a, marks a = some .visiting ↔ a ∈ trail
  visited : ∀ a, marks a = some .visited ↔ a ∈ finished
  nodup : trail.Nodup
  chain : trail.IsChain fun b a => cameFrom b = some a

namespace Tracks

/-- A node that is neither on the trail nor finished has no mark. -/
theorem marks_eq_none (h : Tracks trail finished marks cameFrom) (htrail : a ∉ trail)
    (hfinished : a ∉ finished) : marks a = none := by
  cases hmark : marks a with
  | none => rfl
  | some mark =>
    cases mark with
    | visiting => exact absurd ((h.visiting a).1 hmark) htrail
    | visited => exact absurd ((h.visited a).1 hmark) hfinished

variable [DecidableEq α]

/-- A node that has no mark is put on the stack; if the trail goes on from another node, that one becomes
its predecessor. -/
theorem push (h : Tracks trail finished marks cameFrom) (htrail : a ∉ trail) (hfinished : a ∉ finished)
    {cameFrom' : α → Option α} (hother : ∀ b, b ≠ a → cameFrom' b = cameFrom b)
    (hnewest : ∀ b ∈ trail.head?, cameFrom' a = some b) :
    Tracks (a :: trail) finished (Function.update marks a (some .visiting)) cameFrom' where
  visiting := by
    intro b
    rw [Function.update_apply, List.mem_cons]
    split_ifs with hb
    · simp [hb]
    · simp [hb, h.visiting]
  visited := by
    intro b
    rw [Function.update_apply]
    split_ifs with hb
    · simp [hb, hfinished]
    · exact h.visited b
  nodup := List.nodup_cons.2 ⟨htrail, h.nodup⟩
  chain := by
    refine List.isChain_cons.2 ⟨hnewest, ?_⟩
    -- The predecessors along the old trail are those of its own nodes.
    refine h.chain.imp_of_mem_imp fun b c hb _ hbc => ?_
    rw [hother b fun hba => htrail (hba ▸ hb)]
    exact hbc

/-- The newest node of the trail is taken off the stack. -/
theorem pop (h : Tracks (a :: trail) finished marks cameFrom) :
    Tracks trail (a :: finished) (Function.update marks a (some .visited)) cameFrom where
  visiting := by
    intro b
    rw [Function.update_apply]
    split_ifs with hb
    · simp [hb, (List.nodup_cons.1 h.nodup).1]
    · rw [h.visiting, List.mem_cons, or_iff_right hb]
  visited := by
    intro b
    rw [Function.update_apply, List.mem_cons]
    split_ifs with hb
    · simp [hb]
    · rw [h.visited, or_iff_right hb]
  nodup := (List.nodup_cons.1 h.nodup).2
  chain := h.chain.tail

end Tracks

/-! ## Steps -/

variable [DecidableEq α]

/-- The iteration gets from each state to the next. -/
theorem reaches_step (s : Search α) : Reaches next s (s.step next) := ReflTransGen.single rfl

/-- Reading off a cycle along the trail ends with the closed walk. -/
theorem reaches_retraced (hchain : (b :: trail).IsChain fun b a => cameFrom b = some a)
    (ha : a ∈ b :: trail) (path : List α) :
    Reaches next (.retracing cameFrom a b path)
      (.over (some (a :: ((b :: trail).takeWhile (· ≠ a)).reverse ++ path))) := by
  induction trail generalizing b path with
  | nil =>
    obtain rfl : a = b := List.mem_singleton.1 ha
    have hstep : step next (.retracing cameFrom a a path) = .over (some (a :: path)) := if_pos rfl
    exact ReflTransGen.single (by simpa using hstep)
  | cons c trail ih =>
    by_cases hba : b = a
    · subst hba
      have hstep : step next (.retracing cameFrom b b path) = .over (some (b :: path)) := if_pos rfl
      exact ReflTransGen.single (by simpa using hstep)
    · obtain ⟨hbc, hrest⟩ := List.isChain_cons_cons.1 hchain
      have hstep : step next (.retracing cameFrom a b path) = .retracing cameFrom a c (b :: path) := by
        rw [step, if_neg hba, hbc]
      have hmem : a ∈ c :: trail := (List.mem_cons.1 ha).resolve_left fun h => hba h.symm
      have hlater := ih hrest hmem (b :: path)
      rw [List.takeWhile_cons_of_pos (by simpa using hba), List.reverse_cons, List.cons_append,
        List.append_assoc]
      exact ReflTransGen.head hstep hlater

/-- What exploring results in is where the iteration gets: the end with a cycle, or a state with more
finished nodes, from which it goes on with a stack. -/
def Follows (next : α → List α) (s : Search α) (trail : List α) (stack : List (α × Nat))
    (starts : List α) : Except (List α) (List α) → Prop
  | .error walk => Reaches next s (.over (some walk))
  | .ok finished => ∃ marks cameFrom, Tracks trail finished marks cameFrom ∧
      Reaches next s (.scanning ⟨marks, cameFrom, stack, starts⟩)

/-- What an exploration leads to from a later state, it leads to from an earlier one. -/
theorem Follows.head {s t : Search α} {r : Except (List α) (List α)} (hst : Reaches next s t)
    (h : Follows next t trail stack starts r) : Follows next s trail stack starts r := by
  cases r with
  | error walk => exact hst.trans h
  | ok finished =>
    obtain ⟨marks, cameFrom, htracks, hreaches⟩ := h
    exact ⟨marks, cameFrom, htracks, hst.trans hreaches⟩

/-- Exploring one successor of the newest node of the trail works, whatever was met so far. -/
def Explores (next : α → List α) (depth : Nat) (trail : List α) : Prop :=
  ∀ a ∈ trail.head?, ∀ (cursor : Nat) (b : α), (next a)[cursor]? = some b →
    ∀ (finished : List α) (marks : α → Option Mark) (cameFrom : α → Option α)
      (below : List (α × Nat)) (starts : List α), Tracks trail finished marks cameFrom →
      Follows next (.scanning ⟨marks, cameFrom, (a, cursor) :: below, starts⟩) trail
        ((a, cursor + 1) :: below) starts (explore next depth trail finished b)

/-- If exploring one successor works (`Explores`), exploring all successors from a cursor on works. -/
theorem follows_foldlM {depth : Nat} (hone : Explores next depth (a :: trail)) (bs : List α)
    {cursor : Nat} (hbs : (next a).drop cursor = bs) {below : List (α × Nat)}
    (htracks : Tracks (a :: trail) finished marks cameFrom) :
    Follows next (.scanning ⟨marks, cameFrom, (a, cursor) :: below, starts⟩) (a :: trail)
      ((a, cursor + bs.length) :: below) starts
      (bs.foldlM (explore next depth (a :: trail)) finished) := by
  induction bs generalizing cursor finished marks cameFrom with
  | nil => exact ⟨marks, cameFrom, htracks, ReflTransGen.refl⟩
  | cons b bs ih =>
    have hb : (next a)[cursor]? = some b := by
      rw [← List.head?_drop, hbs, List.head?_cons]
    have hrest : (next a).drop (cursor + 1) = bs := by
      rw [← List.tail_drop, hbs, List.tail_cons]
    have hfirst := hone a rfl cursor b hb finished marks cameFrom below starts htracks
    rw [List.foldlM_cons]
    cases hexplore : explore next depth (a :: trail) finished b with
    | error walk =>
      rw [hexplore] at hfirst
      exact hfirst
    | ok finished' =>
      rw [hexplore] at hfirst
      obtain ⟨marks', cameFrom', htracks', hreaches⟩ := hfirst
      have hgoal := ih hrest htracks'
      rw [show cursor + 1 + bs.length = cursor + (b :: bs).length by rw [List.length_cons]; omega]
        at hgoal
      exact hgoal.head hreaches

/-- A node that was just put on the stack is taken off it when its successors are explored. -/
theorem follows_visit {depth : Nat} (hone : Explores next depth (a :: trail))
    (htracks : Tracks (a :: trail) finished marks cameFrom) :
    Follows next (.scanning ⟨marks, cameFrom, (a, 0) :: stack, starts⟩) trail stack starts
      (((next a).foldlM (explore next depth (a :: trail)) finished).map (a :: ·)) := by
  have hall : Follows next (.scanning ⟨marks, cameFrom, (a, 0) :: stack, starts⟩) (a :: trail)
      ((a, 0 + (next a).length) :: stack) starts
      ((next a).foldlM (explore next depth (a :: trail)) finished) :=
    follows_foldlM hone (next a) List.drop_zero htracks
  cases hfold : (next a).foldlM (explore next depth (a :: trail)) finished with
  | error walk =>
    rw [hfold] at hall
    exact hall
  | ok finished' =>
    rw [hfold] at hall
    obtain ⟨marks', cameFrom', htracks', hreaches⟩ := hall
    refine ⟨_, cameFrom', htracks'.pop, hreaches.tail ?_⟩
    -- The cursor is behind the last successor.
    simp [step]

/-- With enough depth, the iteration follows the recursion. -/
theorem explores (hnodes : ∀ a b, Arc next a b → b ∈ nodes) :
    ∀ (depth : Nat) (trail : List α), nodes.length < depth + trail.length → trail ⊆ nodes →
      Explores next depth trail
  | 0, trail, hdepth, hsub => by
    intro a _ cursor b _ finished marks cameFrom below starts htracks
    -- The trail repeats no node, so it cannot be as long as this.
    have hle := (htracks.nodup.subperm hsub).length_le
    omega
  | depth + 1, trail, hdepth, hsub => by
    intro a ha cursor b hb finished marks cameFrom below starts htracks
    have hstart : Reaches next (.scanning ⟨marks, cameFrom, (a, cursor) :: below, starts⟩)
        (step next (.scanning ⟨marks, cameFrom, (a, cursor) :: below, starts⟩)) := reaches_step _
    rw [explore]
    split_ifs with hfinished htrail
    · refine ⟨marks, cameFrom, htracks, ?_⟩
      simpa [step, hb, (htracks.visited b).2 hfinished] using hstart
    · -- An arc back onto the trail.
      obtain ⟨older, rfl⟩ : ∃ older, trail = a :: older := by
        cases trail with
        | nil => exact absurd htrail List.not_mem_nil
        | cons c older =>
          obtain rfl : c = a := by simpa using ha
          exact ⟨older, rfl⟩
      have hretrace : Reaches next (.scanning ⟨marks, cameFrom, (a, cursor) :: below, starts⟩)
          (.retracing cameFrom b a [b]) := by
        simpa [step, hb, (htracks.visiting b).2 htrail] using hstart
      exact hretrace.trans (reaches_retraced htracks.chain htrail [b])
    · have hmark := htracks.marks_eq_none htrail hfinished
      have hmem : b ∈ nodes := hnodes a b (List.mem_of_getElem? hb)
      have htracks' : Tracks (b :: trail) finished (Function.update marks b (some .visiting))
          (Function.update cameFrom b (some a)) := by
        refine htracks.push htrail hfinished (fun c hc => Function.update_of_ne hc _ _) fun c hc => ?_
        obtain rfl : a = c := Option.mem_unique ha hc
        exact Function.update_self _ _ _
      have hpush : Reaches next (.scanning ⟨marks, cameFrom, (a, cursor) :: below, starts⟩)
          (.scanning ⟨Function.update marks b (some .visiting), Function.update cameFrom b (some a),
            (b, 0) :: (a, cursor + 1) :: below, starts⟩) := by
        simpa [step, hb, hmark] using hstart
      have hdeeper := explores hnodes depth (b :: trail) (by rw [List.length_cons]; omega)
        (List.cons_subset.2 ⟨hmem, hsub⟩)
      exact (follows_visit hdeeper htracks').head hpush

/-! ## The whole search -/

/-- The iteration goes through the start nodes as the recursion does. -/
theorem follows_starts {depth : Nat} (hone : ∀ a ∈ starts, Explores next depth [a])
    (htracks : Tracks [] finished marks cameFrom) :
    Follows next (.scanning ⟨marks, cameFrom, [], starts⟩) [] [] []
      (starts.foldlM (explore next (depth + 1) []) finished) := by
  induction starts generalizing finished marks cameFrom with
  | nil => exact ⟨marks, cameFrom, htracks, ReflTransGen.refl⟩
  | cons a starts ih =>
    have hrest := fun b hb => hone b (List.mem_cons_of_mem a hb)
    have hstart : Reaches next (.scanning ⟨marks, cameFrom, [], a :: starts⟩)
        (step next (.scanning ⟨marks, cameFrom, [], a :: starts⟩)) := reaches_step _
    have hfirst : Follows next (.scanning ⟨marks, cameFrom, [], a :: starts⟩) [] [] starts
        (explore next (depth + 1) [] finished a) := by
      rw [explore]
      split_ifs with hfinished htrail
      · refine ⟨marks, cameFrom, htracks, ?_⟩
        simpa [step, (htracks.visited a).2 hfinished] using hstart
      · exact absurd htrail List.not_mem_nil
      · have htracks' : Tracks [a] finished (Function.update marks a (some .visiting)) cameFrom :=
          htracks.push htrail hfinished (fun _ _ => rfl) fun _ h => nomatch h
        have hpush : Reaches next (.scanning ⟨marks, cameFrom, [], a :: starts⟩)
            (.scanning ⟨Function.update marks a (some .visiting), cameFrom, [(a, 0)], starts⟩) := by
          simpa [step, htracks.marks_eq_none htrail hfinished] using hstart
        exact (follows_visit (hone a List.mem_cons_self) htracks').head hpush
    rw [List.foldlM_cons]
    cases hexplore : explore next (depth + 1) [] finished a with
    | error walk =>
      rw [hexplore] at hfirst
      exact hfirst
    | ok finished' =>
      rw [hexplore] at hfirst
      obtain ⟨marks', cameFrom', htracks', hreaches⟩ := hfirst
      exact (ih hrest htracks').head hreaches

/-- The iteration ends, and its answer is the one of the recursive search. -/
theorem reaches_findCycle? (hnodes : ∀ a b, Arc next a b → b ∈ nodes) :
    Reaches next (Search.start nodes) (.over (findCycle? next nodes)) := by
  have htracks : Tracks [] [] (fun _ : α => none) (fun _ : α => none) :=
    ⟨by simp, by simp, List.nodup_nil, List.isChain_nil⟩
  have hone : ∀ a ∈ nodes, Explores next nodes.length [a] := fun a ha =>
    explores hnodes nodes.length [a] (by simp) (by simpa using ha)
  have hall := follows_starts hone htracks
  unfold findCycle?
  cases hfold : nodes.foldlM (explore next (nodes.length + 1) []) [] with
  | error walk =>
    rw [hfold] at hall
    exact hall
  | ok finished =>
    rw [hfold] at hall
    obtain ⟨marks, cameFrom, -, hreaches⟩ := hall
    exact hreaches.tail rfl

end Recalc.Digraph
