import Recalc.Proofs.Signal.Moves

/-!
# What an action does

The effect of each action on the connected listeners (`slots_connect`, `slots_disconnect`, `slots_drop`) and
on the handles (`handles_connect`, `handles_drop`, `get?_handles_scope`, `get?_handles_release`). For all
actions together, `slots_act` says that those listeners stay whose connection the action does not sever
(`severs`), and that the one it adds (`adds?`) comes last. The only further effect is on whether the signal
has been dropped.
-/

namespace Recalc.SignalSession

variable {s : SignalSession} {action : SignalAction} {x : SlotId × SignalListener} {name other : String}
  {h : SignalHandle} {respond : Nat → String → List SignalAction}

/-- The connection that an action adds. -/
def adds? (s : SignalSession) : SignalAction → Option (SlotId × SignalListener)
  | .connect name respond => if s.dropped then none else some (s.nextSlot, ⟨name, respond⟩)
  | _ => none

/-- Whether an action severs the connection of a slot. -/
def severs (s : SignalSession) (slot : SlotId) : SignalAction → Bool
  | .disconnect name => decide (s.handles.get? name = some ⟨slot, false⟩)
  | .drop name => decide (s.handles.get? name = some ⟨slot, true⟩)
  | .connect name _ => !s.dropped && decide (s.handles.get? name = some ⟨slot, true⟩)
  | .disconnectAll => !s.dropped
  | _ => false

/-! ## Settling and discarding -/

/-- Whether a signal is gone: it has been dropped, and no emission is in progress. -/
def Gone (s : SignalSession) : Prop := s.dropped = true ∧ s.running = 0

/-- A signal that is gone loses its listeners when it settles. -/
theorem settle_of_gone (hgone : s.Gone) : s.settle = { s with signal := {} } :=
  if_pos (by rw [hgone.1, hgone.2]; rfl)

/-- `settle` does nothing as long as the signal is not gone. -/
theorem settle_of_not_gone (hgone : ¬ s.Gone) : s.settle = s := by
  refine if_neg fun h => hgone ?_
  rwa [Bool.and_eq_true, beq_iff_eq] at h

/-- `settle` changes nothing but the listeners. -/
theorem settle_eq (s : SignalSession) : s.settle = { s with signal := s.settle.signal } := by
  unfold settle
  split_ifs <;> rfl

/-- Whether a signal is gone does not depend on whether it has settled. -/
theorem gone_settle : s.settle.Gone ↔ s.Gone := by rw [settle_eq, Gone, Gone]

/-- `discard` changes nothing but the listeners. -/
theorem discard_eq (s : SignalSession) (h : SignalHandle) :
    s.discard h = { s with signal := (s.discard h).signal } := by
  unfold discard
  split_ifs <;> rfl

/-- Discarding a handle takes out its slot if the handle is scoped. -/
theorem slots_discard (s : SignalSession) (h : SignalHandle) :
    (s.discard h).signal.slots = s.signal.slots.filter fun x => !decide (h = ⟨x.1, true⟩) := by
  obtain ⟨slot, isScoped⟩ := h
  cases isScoped with
  | false => exact (List.filter_eq_self.2 fun x _ => by simp).symm
  | true =>
    refine List.filter_congr fun x _ => ?_
    simp [eq_comm (a := x.1)]

/-! ## Actions with a handle -/

/-- Without a handle, `withHandle` does nothing. -/
theorem withHandle_none {f : SignalHandle → SignalSession × SignalReply}
    (hnone : s.handles.get? name = none) : s.withHandle name f = (s, .noHandle) := by
  rw [withHandle, hnone]

/-- With a handle there is, `withHandle` is what is done with it. -/
theorem withHandle_some {f : SignalHandle → SignalSession × SignalReply}
    (hsome : s.handles.get? name = some h) : s.withHandle name f = f h := by
  rw [withHandle, hsome]

/-- Making a handle scoped leaves the listeners as they are. -/
theorem signal_scope (s : SignalSession) (name : String) :
    (s.act (.scope name)).1.signal = s.signal := by
  rw [act]
  cases hname : s.handles.get? name with
  | none => rw [withHandle_none hname]
  | some h =>
    rw [withHandle_some hname]
    split_ifs <;> rfl

/-- Making a handle plain leaves the listeners as they are. -/
theorem signal_release (s : SignalSession) (name : String) :
    (s.act (.release name)).1.signal = s.signal := by
  rw [act]
  cases hname : s.handles.get? name with
  | none => rw [withHandle_none hname]
  | some h =>
    rw [withHandle_some hname]
    split_ifs <;> rfl

/-- To ask whether a listener is connected changes nothing. -/
theorem act_isConnected (s : SignalSession) (name : String) : (s.act (.isConnected name)).1 = s := by
  rw [act, withHandle]
  cases s.handles.get? name <;> rfl

/-- To ask whether two handles belong together changes nothing. -/
theorem act_sameSlot (s : SignalSession) (name other : String) :
    (s.act (.sameSlot name other)).1 = s := by
  rw [act]
  split <;> rfl

/-- A disconnection is answered with whether the listener of the plain handle is connected. -/
theorem reply_disconnect (hsome : s.handles.get? name = some h) (hplain : h.isScoped = false) :
    (s.act (.disconnect name)).2 = .flag (s.signal.contains h.slot) := by
  rw [act, withHandle_some hsome, hplain]
  rfl

/-! ## Listeners -/

/-- `slots_act` for an action that does nothing to connections. -/
theorem slots_of_idle (hsignal : (s.act action).1.signal = s.signal)
    (hsevers : ∀ slot, s.severs slot action = false) (hadds : s.adds? action = none) :
    (s.act action).1.signal.slots =
      s.signal.slots.filter (fun x => !s.severs x.1 action) ++ (s.adds? action).toList := by
  have hall : ∀ x ∈ s.signal.slots, (!s.severs x.1 action) = true := fun x _ => by
    rw [hsevers]
    rfl
  rw [hsignal, hadds, Option.toList_none, List.append_nil, List.filter_eq_self.2 hall]

/-- A connection adds its listener. If its name had a scoped handle, the connection of that one is severed:
it has an older slot, so the new connection is spared. -/
theorem slots_connect (hfresh : ∀ h, s.handles.get? name = some h → h.slot < s.nextSlot)
    (hlive : s.dropped = false) : (s.act (.connect name respond)).1.signal.slots =
      s.signal.slots.filter (fun x => !s.severs x.1 (.connect name respond)) ++
        [(s.nextSlot, ⟨name, respond⟩)] := by
  rw [act, if_neg (hlive ▸ Bool.false_ne_true), connect]
  simp only [severs, hlive, Bool.not_false, Bool.true_and]
  cases hname : s.handles.get? name with
  | none => simp [Signal.attach]
  | some h =>
    have hnew : h ≠ ⟨s.nextSlot, true⟩ := fun heq =>
      Nat.ne_of_lt (hfresh h hname) (congrArg SignalHandle.slot heq)
    rw [Option.elim_some, slots_discard, Signal.attach, List.filter_append]
    simp [hnew]

/-- A disconnection takes out the slot of a plain handle. -/
theorem slots_disconnect (s : SignalSession) (name : String) :
    (s.act (.disconnect name)).1.signal.slots =
      s.signal.slots.filter fun x => !s.severs x.1 (.disconnect name) := by
  rw [act]
  cases hname : s.handles.get? name with
  | none => simp [withHandle_none hname, severs, hname]
  | some h =>
    obtain ⟨slot, isScoped⟩ := h
    rw [withHandle_some hname]
    cases isScoped with
    | true => simp [severs, hname]
    | false =>
      refine List.filter_congr fun x _ => ?_
      simp [severs, hname, eq_comm (a := x.1)]

/-- To drop a handle takes out its slot if the handle is scoped. -/
theorem slots_drop (s : SignalSession) (name : String) :
    (s.act (.drop name)).1.signal.slots =
      s.signal.slots.filter fun x => !s.severs x.1 (.drop name) := by
  rw [act]
  cases hname : s.handles.get? name with
  | none => simp [withHandle_none hname, severs, hname]
  | some h =>
    rw [withHandle_some hname, slots_discard]
    simp [severs, hname]

/-- To disconnect all listeners takes out every slot, unless the signal has been dropped. -/
theorem slots_disconnectAll (s : SignalSession) :
    (s.act .disconnectAll).1.signal.slots =
      s.signal.slots.filter fun x => !s.severs x.1 .disconnectAll := by
  rw [act]
  cases hdropped : s.dropped <;> simp [severs, hdropped]

/-- The listeners after an action that does not drop the signal: those whose connection it does not sever, and
the one whose connection it adds. -/
theorem slots_act (hfresh : ∀ name h, s.handles.get? name = some h → h.slot < s.nextSlot)
    (hne : action ≠ .dropSignal) : (s.act action).1.signal.slots =
      s.signal.slots.filter (fun x => !s.severs x.1 action) ++ (s.adds? action).toList := by
  cases action with
  | connect name respond =>
    cases hdropped : s.dropped with
    | true =>
      have hact : s.act (.connect name respond) = (s, .noSignal) := if_pos hdropped
      refine slots_of_idle (by rw [hact]) (fun _ => ?_) (if_pos hdropped)
      rw [severs, hdropped]
      rfl
    | false =>
      rw [adds?, if_neg (hdropped ▸ Bool.false_ne_true)]
      exact slots_connect (hfresh name) hdropped
  | disconnect name => exact (slots_disconnect s name).trans (List.append_nil _).symm
  | drop name => exact (slots_drop s name).trans (List.append_nil _).symm
  | disconnectAll => exact (slots_disconnectAll s).trans (List.append_nil _).symm
  | dropSignal => exact absurd rfl hne
  | scope name => exact slots_of_idle (signal_scope s name) (fun _ => rfl) rfl
  | release name => exact slots_of_idle (signal_release s name) (fun _ => rfl) rfl
  | isConnected name => exact slots_of_idle (by rw [act_isConnected]) (fun _ => rfl) rfl
  | sameSlot name other => exact slots_of_idle (by rw [act_sameSlot]) (fun _ => rfl) rfl
  | emit text | describe => exact slots_of_idle rfl (fun _ => rfl) rfl

/-! ## Handles -/

/-- A connection gives its name a plain handle. -/
theorem handles_connect (hlive : s.dropped = false) :
    (s.act (.connect name respond)).1.handles = s.handles.insert name ⟨s.nextSlot, false⟩ := by
  rw [act, if_neg (hlive ▸ Bool.false_ne_true), connect]
  cases s.handles.get? name with
  | none => rfl
  | some h => exact congrArg SignalSession.handles (discard_eq _ h)

/-- To drop a handle takes it from its name. -/
theorem get?_handles_drop (s : SignalSession) (name other : String) :
    (s.act (.drop name)).1.handles.get? other = if other = name then none else s.handles.get? other := by
  rw [act]
  cases hname : s.handles.get? name with
  | none =>
    rw [withHandle_none hname]
    split_ifs with hother
    · rw [hother, hname]
    · rfl
  | some h =>
    rw [withHandle_some hname, discard_eq]
    exact OrderedMap.get?_erase ..

/-- To make a handle scoped changes that of its name only. -/
theorem get?_handles_scope (s : SignalSession) (name other : String) :
    (s.act (.scope name)).1.handles.get? other =
      if other = name then (s.handles.get? name).map fun h => { h with isScoped := true }
      else s.handles.get? other := by
  rw [act]
  cases hname : s.handles.get? name with
  | none =>
    rw [withHandle_none hname]
    split_ifs with hother
    · rw [hother, hname]
      rfl
    · rfl
  | some h =>
    rw [withHandle_some hname]
    split_ifs with hscoped hother hother
    · rw [hother, hname, Option.map_some, ← hscoped]
    · rfl
    · exact (OrderedMap.get?_insert ..).trans (if_pos hother)
    · exact (OrderedMap.get?_insert ..).trans (if_neg hother)

/-- To release a handle changes that of its name only. -/
theorem get?_handles_release (s : SignalSession) (name other : String) :
    (s.act (.release name)).1.handles.get? other =
      if other = name then (s.handles.get? name).map fun h => { h with isScoped := false }
      else s.handles.get? other := by
  rw [act]
  cases hname : s.handles.get? name with
  | none =>
    rw [withHandle_none hname]
    split_ifs with hother
    · rw [hother, hname]
      rfl
    · rfl
  | some h =>
    rw [withHandle_some hname]
    split_ifs with hscoped hother hother
    · exact (OrderedMap.get?_insert ..).trans (if_pos hother)
    · exact (OrderedMap.get?_insert ..).trans (if_neg hother)
    · rw [hother, hname, Option.map_some, ← Bool.eq_false_iff.2 hscoped]
    · rfl

/-- An action with no handle to make, drop, or make scoped or plain leaves the handles as they are. -/
theorem handles_of_not_handled? (hm : (SignalMove.act action).handled? = none) :
    (s.act action).1.handles = s.handles := by
  cases action with
  | connect name respond | drop name | scope name | release name => cases hm
  | disconnect name =>
    rw [act, withHandle]
    cases s.handles.get? name with
    | none => rfl
    | some h => dsimp only; split_ifs <;> rfl
  | disconnectAll => rw [act]; split_ifs <;> rfl
  | dropSignal => rw [act, settle_eq]; split_ifs <;> rfl
  | isConnected name => rw [act_isConnected]
  | sameSlot name other => rw [act_sameSlot]
  | emit text | describe => rfl

/-- An action leaves the handle of a name as it is, unless it makes, drops or changes the handle of this
name. -/
theorem get?_handles_act (hm : (SignalMove.act action).handled? ≠ some name) :
    (s.act action).1.handles.get? name = s.handles.get? name := by
  cases action with
  | connect new respond =>
    have hne : name ≠ new := fun h => hm (h ▸ rfl)
    cases hdropped : s.dropped with
    | true => rw [act, if_pos hdropped]
    | false => rw [handles_connect hdropped, OrderedMap.get?_insert, if_neg hne]
  | drop other =>
    have hne : name ≠ other := fun h => hm (h ▸ rfl)
    rw [get?_handles_drop, if_neg hne]
  | scope other =>
    have hne : name ≠ other := fun h => hm (h ▸ rfl)
    rw [get?_handles_scope, if_neg hne]
  | release other =>
    have hne : name ≠ other := fun h => hm (h ▸ rfl)
    rw [get?_handles_release, if_neg hne]
  | _ => rw [handles_of_not_handled?]; rfl

/-! ## All the rest -/

/-- Apart from the listeners and the handles, an action changes whether the signal has been dropped, if it
drops the signal, and takes the next slot, if it adds a connection. -/
theorem act_eq (s : SignalSession) (action : SignalAction) : (s.act action).1 =
    { s with
      signal := (s.act action).1.signal
      handles := (s.act action).1.handles
      dropped := (SignalMove.act action).isDropSignal || s.dropped
      nextSlot := s.nextSlot + (s.adds? action).toList.length } := by
  cases action with
  | connect name respond =>
    rw [act, adds?]
    split_ifs
    · rfl
    · rw [connect]
      cases s.handles.get? name with
      | none => rfl
      | some h => rw [Option.elim_some, discard_eq]; rfl
  | disconnect name | scope name | release name =>
    rw [act, withHandle]
    cases s.handles.get? name with
    | none => rfl
    | some h => dsimp only; split_ifs <;> rfl
  | drop name =>
    rw [act, withHandle]
    cases s.handles.get? name with
    | none => rfl
    | some h => dsimp only; rw [discard_eq]; rfl
  | disconnectAll => rw [act]; split_ifs <;> rfl
  | dropSignal =>
    rw [act]
    split_ifs with hdropped
    · show s = { s with dropped := true }
      rw [← hdropped]
    · rw [settle_eq]; rfl
  | isConnected name => rw [act_isConnected]; rfl
  | sameSlot name other => rw [act_sameSlot]; rfl
  | emit text | describe => rfl

end Recalc.SignalSession
