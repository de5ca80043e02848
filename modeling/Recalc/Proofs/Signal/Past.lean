import Mathlib.Data.List.Induction
import Mathlib.Data.List.Nodup
import Mathlib.Data.List.TakeWhile
import Recalc.Proofs.Signal.Moves

/-!
# What the moves tell

The moves made on a signal tell which listeners are connected and what the handles stand for, without a look
at the sessions they lead to. All of it is said with `Since`: one thing happened, and another one did not
happen after it. A name `Holds` the connection made under it until its handle is dropped or replaced, that
handle is `Scoped` from the time it is made scoped until it is released or gone, and a listener is `Attached`
from its connection until something `Ends` that.

What a further move changes is told by `since_concat`; `Records` applies it to the handle of one name, for
each kind of move (`Records.connect`, `Records.drop`, `Records.scope`, `Records.release`, `Records.calm`).
-/

namespace Recalc

/-- Whether `P` holds of an element and `Q` of none after it. Both see the elements before as well. -/
def Since {α : Type} (P Q : List α → α → Prop) (xs : List α) : Prop :=
  ∃ pre x post, xs = pre ++ x :: post ∧ P pre x ∧
    ∀ pre' x' post', post = pre' ++ x' :: post' → ¬ Q (pre ++ x :: pre') x'

/-- With one element more, `Since` holds if `P` does of this element, or if it held before and `Q` does not
hold of this element. -/
theorem since_concat {α : Type} {P Q : List α → α → Prop} {xs : List α} {x : α} :
    Since P Q (xs ++ [x]) ↔ P xs x ∨ Since P Q xs ∧ ¬ Q xs x := by
  constructor
  · rintro ⟨pre, y, post, hsplit, hP, hkept⟩
    rcases List.eq_nil_or_concat' post with rfl | ⟨post', last, rfl⟩
    · obtain ⟨rfl, hlast⟩ := List.append_inj' hsplit rfl
      obtain rfl := List.head_eq_of_cons_eq hlast
      exact .inl hP
    · rw [← List.cons_append, ← List.append_assoc] at hsplit
      obtain ⟨rfl, hlast⟩ := List.append_inj' hsplit rfl
      obtain rfl := List.head_eq_of_cons_eq hlast
      refine .inr ⟨⟨pre, y, post', rfl, hP, fun pre' z post'' hz => ?_⟩, hkept post' x [] rfl⟩
      exact hkept pre' z (post'' ++ [x]) (by rw [hz, List.append_assoc, List.cons_append])
  · rintro (hP | ⟨⟨pre, y, post, rfl, hP, hkept⟩, hQ⟩)
    · exact ⟨xs, x, [], rfl, hP, fun pre' z post' hz => by simp at hz⟩
    · refine ⟨pre, y, post ++ [x], by simp, hP, fun pre' z post' hz => ?_⟩
      rcases List.eq_nil_or_concat' post' with rfl | ⟨post'', last, rfl⟩
      · obtain ⟨rfl, hlast⟩ := List.append_inj' hz rfl
        obtain rfl := List.head_eq_of_cons_eq hlast
        exact hQ
      · rw [← List.cons_append, ← List.append_assoc] at hz
        exact hkept pre' z post'' (List.append_inj' hz rfl).1

/-- Nothing has happened in the empty list. -/
theorem not_since_nil {α : Type} {P Q : List α → α → Prop} : ¬ Since P Q [] := by
  rintro ⟨pre, x, post, hsplit, -⟩
  exact absurd hsplit (by simp)

namespace SignalMove

variable {ms : List SignalMove} {m : SignalMove} {name : String} {slot : SlotId}
  {x : SlotId × SignalListener} {o : Option SignalHandle}

/-! ## Connections -/

/-- The listener that a move asks to connect. -/
def listener? : SignalMove → Option SignalListener
  | .act (.connect name respond) => some ⟨name, respond⟩
  | _ => none

/-- Whether the signal has been dropped. -/
def isDropped (ms : List SignalMove) : Bool := ms.any isDropSignal

/-- Whether the signal has been dropped and no emission is in progress. -/
def Gone (ms : List SignalMove) : Prop := isDropped ms = true ∧ ms.countP isBegan = ms.countP isEnded

/-- The listeners connected, oldest first: those asked for before the signal was dropped. -/
def listeners (ms : List SignalMove) : List SignalListener :=
  (ms.takeWhile fun m => !m.isDropSignal).filterMap listener?

/-- The connections made, oldest first. Their slots are numbered in this order. -/
def connections (ms : List SignalMove) : List (SlotId × SignalListener) :=
  (listeners ms).mapIdx Prod.mk

/-- The connection that a move makes after others. -/
def connected? (ms : List SignalMove) (m : SignalMove) : Option (SlotId × SignalListener) :=
  if isDropped ms then none else m.listener?.map ((listeners ms).length, ·)

/-- Only a connecting move asks for a listener. -/
theorem eq_connect_of_listener? {listener : SignalListener} (hm : m.listener? = some listener) :
    ∃ respond, m = .act (.connect listener.name respond) := by
  unfold listener? at hm
  split at hm
  · rename_i name respond
    exact ⟨respond, Option.some.inj hm ▸ rfl⟩
  · cases hm

/-- A move that asks for no connection makes none. -/
theorem connected?_eq_none (hm : m.listener? = none) : connected? ms m = none := by
  rw [connected?, hm]
  exact ite_self _

/-- The slot of a connection is the number of those made before. -/
theorem slot_of_connected? (hm : connected? ms m = some x) : x.1 = (listeners ms).length := by
  rw [connected?] at hm
  split_ifs at hm
  obtain ⟨listener, -, rfl⟩ := Option.map_eq_some_iff.1 hm
  rfl

/-- `isDropped` of one more move. -/
theorem isDropped_concat : isDropped (ms ++ [m]) = (isDropped ms || m.isDropSignal) := by
  rw [isDropped, List.any_append, isDropped, List.any_cons, List.any_nil, Bool.or_false]

/-- `listeners` of one more move. -/
theorem listeners_concat :
    listeners (ms ++ [m]) = listeners ms ++ ((connected? ms m).map Prod.snd).toList := by
  have hone : ([m].takeWhile fun m => !m.isDropSignal).filterMap listener? = m.listener?.toList := by
    cases hdrop : m.isDropSignal with
    | false => cases hl : m.listener? <;> simp [hdrop, hl]
    | true =>
      have hnone : m.listener? = none := by
        unfold isDropSignal at hdrop
        split at hdrop
        · rfl
        · cases hdrop
      simp [hdrop, hnone]
  unfold connected? listeners
  cases hdropped : isDropped ms with
  | false =>
    have hlive : ∀ m ∈ ms, (!m.isDropSignal) = true := by
      simpa [isDropped] using hdropped
    rw [List.takeWhile_append_of_pos hlive, List.filterMap_append, hone,
      List.takeWhile_eq_self_iff.2 hlive]
    cases m.listener? <;> rfl
  | true =>
    have hstop : ¬ ∀ m ∈ ms, (!m.isDropSignal) = true := by
      simpa [isDropped] using hdropped
    rw [List.takeWhile_append, if_neg fun h => hstop (List.takeWhile_eq_self_iff.1 ?_)]
    · exact (List.append_nil _).symm
    · exact (List.takeWhile_prefix _).eq_of_length h

/-- `connections` of one more move. -/
theorem connections_concat :
    connections (ms ++ [m]) = connections ms ++ (connected? ms m).toList := by
  rw [connections, listeners_concat]
  cases hm : connected? ms m with
  | none => simp [connections]
  | some x =>
    have hx : ((listeners ms).length, x.2) = x := Prod.ext (slot_of_connected? hm).symm rfl
    simp [connections, List.mapIdx_concat, hx]

/-- A connection made by one of the moves is among the connections. -/
theorem mem_connections {pre post : List SignalMove} (hm : connected? pre m = some x) :
    x ∈ connections (pre ++ m :: post) := by
  induction post using List.reverseRecOn with
  | nil => exact connections_concat ▸ List.mem_append_right _ (Option.mem_toList.2 hm)
  | append_singleton post last ih =>
    rw [← List.cons_append, ← List.append_assoc, connections_concat]
    exact List.mem_append_left _ ih

/-- Slots are below the number of connections. -/
theorem slot_lt (hx : x ∈ connections ms) : x.1 < (listeners ms).length := by
  obtain ⟨i, hi, rfl⟩ := List.mem_mapIdx.1 hx
  exact hi

/-- No slot is given out twice. -/
theorem nodup_connections (ms : List SignalMove) : ((connections ms).map Prod.fst).Nodup := by
  have hrange : (connections ms).map Prod.fst = List.range (listeners ms).length := by
    refine List.ext_getElem (by simp [connections]) fun i hi hi' => ?_
    simp [connections]
  exact hrange ▸ List.nodup_range

/-- A slot determines its connection. -/
theorem eq_of_mem_connections {x y : SlotId × SignalListener} (hx : x ∈ connections ms)
    (hy : y ∈ connections ms) (hslot : x.1 = y.1) : x = y :=
  List.inj_on_of_nodup_map (nodup_connections ms) hx hy hslot

/-! ## Handles -/

/-- Whether a name loses its handle with a move: the handle is dropped, or a new one takes the name. -/
def LetsGo (name : String) (ms : List SignalMove) (m : SignalMove) : Prop :=
  m = .act (.drop name) ∨ ∃ x, connected? ms m = some x ∧ x.2.name = name

/-- A name keeps its handle when this handle is not dropped and no connection is asked for. -/
theorem not_letsGo (hdrop : m ≠ .act (.drop name)) (hm : m.listener? = none) : ¬ LetsGo name ms m := by
  rintro (h | ⟨x, hx, -⟩)
  · exact hdrop h
  · exact absurd (hx.symm.trans (connected?_eq_none hm)) (Option.some_ne_none _)

/-- A name keeps its handle when a move is about no handle or about that of another name. -/
theorem not_letsGo_of_handled? (hm : m.handled? ≠ some name) : ¬ LetsGo name ms m := by
  rintro (rfl | ⟨x, hx, rfl⟩)
  · exact hm rfl
  · cases hlistener : m.listener? with
    | none => exact absurd (hx.symm.trans (connected?_eq_none hlistener)) (Option.some_ne_none _)
    | some listener =>
      obtain ⟨respond, rfl⟩ := eq_connect_of_listener? hlistener
      rw [connected?, hlistener] at hx
      split_ifs at hx
      obtain rfl := Option.some.inj hx
      exact hm rfl

/-- A name holds a connection: it was made under this name, which has not lost the handle since. -/
def Holds (name : String) (slot : SlotId) (ms : List SignalMove) : Prop :=
  Since (fun pre m => ∃ respond, connected? pre m = some (slot, ⟨name, respond⟩)) (LetsGo name) ms

/-- What a name holds is a connection made under it. -/
theorem exists_connection (h : Holds name slot ms) : ∃ respond, (slot, ⟨name, respond⟩) ∈ connections ms := by
  obtain ⟨pre, m, post, rfl, ⟨respond, hm⟩, -⟩ := h
  exact ⟨respond, mem_connections hm⟩

/-- The handle of a name is scoped: it was made scoped, and since then it has been neither released nor
lost. -/
def Scoped (name : String) (ms : List SignalMove) : Prop :=
  Since (fun pre m => m = .act (.scope name) ∧ ∃ slot, Holds name slot pre)
    (fun pre m => m = .act (.release name) ∨ LetsGo name pre m) ms

/-- The handle of a name, if there is one, is to the connection that the name holds, and it is scoped if the
moves tell so. -/
def Records (ms : List SignalMove) (name : String) (o : Option SignalHandle) : Prop :=
  ∀ h, o = some h ↔ Holds name h.slot ms ∧ (h.isScoped = true ↔ Scoped name ms)

namespace Records

/-- At the start there are no handles. -/
theorem nil (name : String) : Records [] name none := fun _ =>
  iff_of_false (fun h => nomatch h) fun h => not_since_nil h.1

/-- If a name holds a connection, it has a handle to it. -/
theorem exists_of_holds (h : Records ms name o) (hslot : Holds name slot ms) :
    ∃ b, o = some ⟨slot, b⟩ := by
  by_cases hscoped : Scoped name ms
  · exact ⟨true, (h ⟨slot, true⟩).2 ⟨hslot, iff_of_true rfl hscoped⟩⟩
  · exact ⟨false, (h ⟨slot, false⟩).2 ⟨hslot, iff_of_false Bool.false_ne_true hscoped⟩⟩

/-- A plain handle is to the connection that the name holds, and the moves tell that it is not scoped. -/
theorem plain_iff (h : Records ms name o) :
    o = some ⟨slot, false⟩ ↔ Holds name slot ms ∧ ¬ Scoped name ms := by
  rw [h ⟨slot, false⟩]
  simp

/-- A scoped handle is to the connection that the name holds, and the moves tell that it is scoped. -/
theorem scoped_iff (h : Records ms name o) :
    o = some ⟨slot, true⟩ ↔ Holds name slot ms ∧ Scoped name ms := by
  rw [h ⟨slot, true⟩]
  simp

/-- A connection made under a name gives it a plain handle, whatever there was before. -/
theorem connect (respond : Nat → String → List SignalAction)
    (hm : connected? ms m = some (slot, ⟨name, respond⟩)) :
    Records (ms ++ [m]) name (some ⟨slot, false⟩) := by
  have hgone : LetsGo name ms m := .inr ⟨_, hm, rfl⟩
  have hplain : ¬ Scoped name (ms ++ [m]) := by
    rw [Scoped, since_concat]
    rintro (⟨rfl, -⟩ | ⟨-, hkept⟩)
    · exact absurd (hm.symm.trans (connected?_eq_none rfl)) (Option.some_ne_none _)
    · exact hkept (.inr hgone)
  have hholds : ∀ slot', Holds name slot' (ms ++ [m]) ↔ slot' = slot := fun slot' => by
    rw [Holds, since_concat]
    constructor
    · rintro (⟨respond', hm'⟩ | ⟨-, hkept⟩)
      · exact congrArg Prod.fst (Option.some.inj (hm'.symm.trans hm))
      · exact absurd hgone hkept
    · rintro rfl
      exact .inl ⟨respond, hm⟩
  rintro ⟨slot', b⟩
  rw [hholds, Option.some.injEq, SignalHandle.mk.injEq, iff_false_right hplain, Bool.not_eq_true,
    eq_comm (a := slot), eq_comm (a := false)]

/-- After its handle is dropped, a name has none. -/
theorem drop : Records (ms ++ [.act (.drop name)]) name none := by
  refine fun h => iff_of_false (fun h => nomatch h) fun ⟨hholds, _⟩ => ?_
  rcases since_concat.1 hholds with ⟨respond, hm⟩ | ⟨-, hkept⟩
  · exact absurd (hm.symm.trans (connected?_eq_none rfl)) (Option.some_ne_none _)
  · exact hkept (.inl rfl)

/-- A move that does not take the handle from a name leaves it what it holds. -/
theorem holds_concat (hkept : ¬ LetsGo name ms m) :
    Holds name slot (ms ++ [m]) ↔ Holds name slot ms := by
  rw [Holds, since_concat, and_iff_left hkept]
  exact or_iff_right fun ⟨respond, hm⟩ => hkept (.inr ⟨_, hm, rfl⟩)

/-- After it is made scoped, a handle is scoped. -/
theorem scope (h : Records ms name o) :
    Records (ms ++ [.act (.scope name)]) name (o.map fun h => { h with isScoped := true }) := by
  have hkept : ¬ LetsGo name ms (.act (.scope name)) := not_letsGo nofun rfl
  rintro ⟨slot, b⟩
  rw [holds_concat hkept]
  have hscoped : Holds name slot ms → Scoped name (ms ++ [.act (.scope name)]) := fun hslot =>
    since_concat.2 (.inl ⟨rfl, slot, hslot⟩)
  constructor
  · intro hmap
    obtain ⟨old, hold, heq⟩ := Option.map_eq_some_iff.1 hmap
    obtain ⟨rfl, rfl⟩ := SignalHandle.mk.inj heq
    have hslot := ((h old).1 hold).1
    exact ⟨hslot, iff_of_true rfl (hscoped hslot)⟩
  · rintro ⟨hslot, hb⟩
    obtain ⟨b', rfl⟩ := h.exists_of_holds hslot
    have hb' : b = true := hb.2 (hscoped hslot)
    rw [hb']
    rfl

/-- After it is released, a handle is plain. -/
theorem release (h : Records ms name o) :
    Records (ms ++ [.act (.release name)]) name (o.map fun h => { h with isScoped := false }) := by
  have hkept : ¬ LetsGo name ms (.act (.release name)) := not_letsGo nofun rfl
  have hplain : ¬ Scoped name (ms ++ [.act (.release name)]) := by
    rw [Scoped, since_concat]
    rintro (⟨hscope, -⟩ | ⟨-, hkept⟩)
    · cases hscope
    · exact hkept (.inl rfl)
  rintro ⟨slot, b⟩
  rw [holds_concat hkept]
  constructor
  · intro hmap
    obtain ⟨old, hold, heq⟩ := Option.map_eq_some_iff.1 hmap
    obtain ⟨rfl, rfl⟩ := SignalHandle.mk.inj heq
    exact ⟨((h old).1 hold).1, iff_of_false Bool.false_ne_true hplain⟩
  · rintro ⟨hslot, hb⟩
    obtain ⟨b', rfl⟩ := h.exists_of_holds hslot
    have hb' : b = false := Bool.eq_false_iff.2 fun h => hplain (hb.1 h)
    rw [hb']
    rfl

/-- A move by which a name keeps its handle, and which makes it neither scoped nor plain, leaves it as it
is. -/
theorem keep (h : Records ms name o) (hkept : ¬ LetsGo name ms m) (hscope : m ≠ .act (.scope name))
    (hrelease : m ≠ .act (.release name)) : Records (ms ++ [m]) name o := by
  have hscoped : Scoped name (ms ++ [m]) ↔ Scoped name ms := by
    rw [Scoped, since_concat]
    have hfree : ¬ (m = .act (.release name) ∨ LetsGo name ms m) := not_or.2 ⟨hrelease, hkept⟩
    rw [and_iff_left hfree, or_iff_right fun hfirst => hscope hfirst.1]
    rfl
  intro handle
  rw [h handle, holds_concat hkept, hscoped]

/-- A move that is about no handle or about that of another name leaves the handle of a name as it is. -/
theorem calm (h : Records ms name o) (hm : m.handled? ≠ some name) : Records (ms ++ [m]) name o :=
  h.keep (not_letsGo_of_handled? hm) (fun hscope => hm (hscope ▸ rfl)) fun hrelease => hm (hrelease ▸ rfl)

/-- Once the signal has been dropped, asking for a connection leaves the handles as they are. -/
theorem connect_of_dropped (h : Records ms name o) (hdropped : isDropped ms = true) (new : String)
    (respond : Nat → String → List SignalAction) : Records (ms ++ [.act (.connect new respond)]) name o := by
  refine h.keep ?_ nofun nofun
  rintro (hdrop | ⟨x, hx, -⟩)
  · cases hdrop
  · rw [connected?, if_pos hdropped] at hx
    cases hx

end Records

/-! ## Listeners -/

/-- A move ends a connection: a plain handle to it is used to disconnect the listener, or a scoped handle to
it is dropped, by itself or because another one takes its name, or all listeners are disconnected. -/
inductive Ends (slot : SlotId) (ms : List SignalMove) : SignalMove → Prop
  | disconnect {name : String} (hholds : Holds name slot ms) (hplain : ¬ Scoped name ms) :
    Ends slot ms (.act (.disconnect name))
  | drop {name : String} (hholds : Holds name slot ms) (hscoped : Scoped name ms) :
    Ends slot ms (.act (.drop name))
  | replace {name : String} {respond : Nat → String → List SignalAction} (hlive : isDropped ms = false)
    (hholds : Holds name slot ms) (hscoped : Scoped name ms) : Ends slot ms (.act (.connect name respond))
  | disconnectAll (hlive : isDropped ms = false) : Ends slot ms (.act .disconnectAll)

namespace Ends

/-- Disconnecting by a handle ends the connection that its name holds by a plain one. -/
theorem disconnect_iff : Ends slot ms (.act (.disconnect name)) ↔ Holds name slot ms ∧ ¬ Scoped name ms := by
  constructor
  · intro h
    cases h with
    | disconnect hholds hplain => exact ⟨hholds, hplain⟩
  · exact fun h => .disconnect h.1 h.2

/-- Dropping a handle ends the connection that its name holds by a scoped one. -/
theorem drop_iff : Ends slot ms (.act (.drop name)) ↔ Holds name slot ms ∧ Scoped name ms := by
  constructor
  · intro h
    cases h with
    | drop hholds hscoped => exact ⟨hholds, hscoped⟩
  · exact fun h => .drop h.1 h.2

/-- A connection that is made ends the one that its name holds by a scoped handle. -/
theorem connect_iff {respond : Nat → String → List SignalAction} :
    Ends slot ms (.act (.connect name respond)) ↔
      isDropped ms = false ∧ Holds name slot ms ∧ Scoped name ms := by
  constructor
  · intro h
    cases h with
    | replace hlive hholds hscoped => exact ⟨hlive, hholds, hscoped⟩
  · exact fun h => .replace h.1 h.2.1 h.2.2

/-- Disconnecting all listeners ends every connection, as long as there is a signal. -/
theorem disconnectAll_iff : Ends slot ms (.act .disconnectAll) ↔ isDropped ms = false := by
  constructor
  · intro h
    cases h with
    | disconnectAll hlive => exact hlive
  · exact .disconnectAll

end Ends

/-- A listener is attached: it was connected, and nothing has ended its connection since. -/
def Attached (x : SlotId × SignalListener) (ms : List SignalMove) : Prop :=
  Since (fun pre m => connected? pre m = some x) (Ends x.1) ms

end SignalMove

end Recalc
