import Recalc.Proofs.Signal.Emission

/-!
# What handles do

A handle controls the listener that was connected when the handle was made, and no other (`Controls`): with a
plain handle the listener can be disconnected, dropping a scoped one takes the listener away, and any handle
tells whether it is connected. Making a handle scoped or plain, and dropping a plain one, has no effect on the
listeners.

`listeners_of_run` puts this together with what the moves tell of the listeners and the handles, for every
moment of a run.
-/

namespace Recalc.SignalSession

open SignalAttempt SignalMove

variable {s : SignalSession} {ms : List SignalMove} {x : SlotId × SignalListener} {name : String}
  {h : SignalHandle} {listener : SignalListener}

/-- One listener has been taken away, and no other, and the rest is in the order that it was in. -/
structure TakenAway (x : SlotId × SignalListener) (before after : Signal SignalListener) : Prop where
  sublist : after.slots.Sublist before.slots
  mem_iff : ∀ y, y ∈ after.slots ↔ y ∈ before.slots ∧ y ≠ x

/-- What can be done with the handle kept under a name, which belongs to a listener. -/
structure Controls (s : SignalSession) (name : String) (h : SignalHandle) (listener : SignalListener) :
    Prop where
  /-- Disconnecting answers whether the listener is connected just before, -/
  disconnect_reply : h.isScoped = false →
    ∃ b, (s.act (.disconnect name)).2 = .flag b ∧ (b = true ↔ (h.slot, listener) ∈ s.signal.slots)
  /-- and takes this listener away. -/
  disconnect_signal : h.isScoped = false →
    TakenAway (h.slot, listener) s.signal (s.act (.disconnect name)).1.signal
  /-- One can ask whether the listener is connected, and that changes nothing. -/
  isConnected : (s.act (.isConnected name)).1 = s ∧
    ∃ b, (s.act (.isConnected name)).2 = .flag b ∧ (b = true ↔ (h.slot, listener) ∈ s.signal.slots)
  /-- Making the handle scoped or plain changes nothing but the handle. -/
  scope : (s.act (.scope name)).1.signal = s.signal ∧
    (s.act (.scope name)).1.handles.get? name = some ⟨h.slot, true⟩
  release : (s.act (.release name)).1.signal = s.signal ∧
    (s.act (.release name)).1.handles.get? name = some ⟨h.slot, false⟩
  /-- Dropping the handle takes the listener away if the handle is scoped, and only then. -/
  drop : (s.act (.drop name)).1.handles.get? name = none
  drop_plain : h.isScoped = false → (s.act (.drop name)).1.signal = s.signal
  drop_scoped : h.isScoped = true →
    TakenAway (h.slot, listener) s.signal (s.act (.drop name)).1.signal

/-- A slot that belongs to a listener is connected if that listener is. -/
theorem Accounts.contains_iff (accounts : Accounts ms s) (hx : x ∈ connections ms) :
    s.signal.contains x.1 = true ↔ x ∈ s.signal.slots := by
  refine ⟨fun h => ?_, fun hmem => decide_eq_true (List.mem_map_of_mem hmem)⟩
  obtain ⟨y, hy, hslot⟩ := List.mem_map.1 (of_decide_eq_true h)
  exact eq_of_mem_connections (accounts.sublist.subset hy) hx hslot ▸ hy

/-- To keep all slots but one takes away the listener that this slot belongs to. -/
theorem Accounts.takenAway (accounts : Accounts ms s) (hx : x ∈ connections ms)
    {after : Signal SignalListener} {action : SignalAction}
    (hafter : after.slots = s.signal.slots.filter fun x => !s.severs x.1 action)
    (hsevers : ∀ slot, s.severs slot action = true ↔ slot = x.1) : TakenAway x s.signal after where
  sublist := hafter ▸ List.filter_sublist
  mem_iff y := by
    rw [hafter, List.mem_filter, Bool.not_eq_true', ← Bool.not_eq_true, hsevers]
    refine and_congr_right fun hy => not_congr ⟨fun hslot => ?_, congrArg Prod.fst⟩
    exact eq_of_mem_connections (accounts.sublist.subset hy) hx hslot

/-- Each handle controls the listener connected when it was made. -/
theorem Accounts.controls (accounts : Accounts ms s) (hsome : s.handles.get? name = some h)
    (hx : (h.slot, listener) ∈ connections ms) : s.Controls name h listener where
  disconnect_reply hplain := ⟨_, reply_disconnect hsome hplain, accounts.contains_iff hx⟩
  disconnect_signal hplain := by
    refine accounts.takenAway hx (slots_disconnect s name) fun slot => ?_
    obtain ⟨slot', b⟩ := h
    obtain rfl : b = false := hplain
    simp [severs, hsome, eq_comm]
  isConnected := by
    refine ⟨act_isConnected s name, _, ?_, accounts.contains_iff hx⟩
    rw [act, withHandle_some hsome]
  scope := by
    refine ⟨signal_scope s name, ?_⟩
    rw [get?_handles_scope, if_pos rfl, hsome]
    rfl
  release := by
    refine ⟨signal_release s name, ?_⟩
    rw [get?_handles_release, if_pos rfl, hsome]
    rfl
  drop := by rw [get?_handles_drop, if_pos rfl]
  drop_plain hplain := by
    rw [act, withHandle_some hsome, discard, if_neg (hplain ▸ Bool.false_ne_true)]
  drop_scoped hscoped := by
    refine accounts.takenAway hx (slots_drop s name) fun slot => ?_
    obtain ⟨slot', b⟩ := h
    obtain rfl : b = true := hscoped
    simp [severs, hsome, eq_comm]

/-- At every moment of a run, in the middle of emissions as well:

* The signal's listeners are those `Attached`: connected before, and since then neither disconnected with a
  plain handle, nor taken away by the drop of a scoped one, nor cleared with all others. They are in the order
  in which they were connected, and none is there twice.
* A name has the handle to the connection that it `Holds`, if it holds one, and this handle is scoped if the
  moves made it so (`Scoped`). It belongs to a connection made under the name, and it `Controls` the listener
  of this connection only.
* When the signal has been dropped and no emission is in progress, no listener is left, and every handle
  tells that its listener is not connected.

A run that ends leads to where its moves lead. -/
theorem listeners_of_run (depth : Nat) (actions : List SignalAction) {ms : List SignalMove}
    (hms : ms <+: (attemptAll depth {} actions).moves) :
    let s := after {} ms
    (s.signal.slots.Sublist (connections ms) ∧ s.signal.ids.Nodup ∧
      (¬ SignalMove.Gone ms → ∀ x, x ∈ s.signal.slots ↔ Attached x ms)) ∧
    (∀ name h, s.handles.get? name = some h ↔
      Holds name h.slot ms ∧ (h.isScoped = true ↔ Scoped name ms)) ∧
    (((connections ms).map Prod.fst).Nodup ∧ ∀ name h, s.handles.get? name = some h →
      ∃ respond, (h.slot, ⟨name, respond⟩) ∈ connections ms ∧ s.Controls name h ⟨name, respond⟩) ∧
    (SignalMove.Gone ms → s.signal.slots = [] ∧ ∀ name h, s.handles.get? name = some h →
      (h.isScoped = false → (s.act (.disconnect name)).2 = .flag false) ∧
        (s.act (.isConnected name)).2 = .flag false) ∧
    (∀ s', performAll depth {} actions = some s' → after {} (attemptAll depth {} actions).moves = s') := by
  have hrecorded := recorded_attemptAll depth {} actions
  obtain ⟨later, hlater⟩ := hms
  have hcourse : ({} : SignalSession).Course ms := (course_append.1 (hlater ▸ hrecorded.course)).1
  have haccounts := accounts_of_course hcourse
  dsimp only
  rw [← haccounts.gone_iff]
  refine ⟨⟨haccounts.sublist, haccounts.ids_nodup, haccounts.mem_iff⟩, haccounts.records,
    ⟨nodup_connections ms, fun name h hsome => ?_⟩, fun hgone => ?_, fun s' hs' => ?_⟩
  · obtain ⟨respond, hx⟩ := haccounts.exists_connection hsome
    exact ⟨respond, hx, haccounts.controls hsome hx⟩
  · have hempty : (after {} ms).signal.slots = [] := haccounts.empty hgone
    have hcontains : ∀ slot, (after {} ms).signal.contains slot = false := fun slot => by
      rw [Signal.contains, Signal.ids, hempty]
      rfl
    refine ⟨hempty, fun name h hsome => ⟨fun hplain => ?_, ?_⟩⟩
    · rw [reply_disconnect hsome hplain, hcontains]
    · rw [act, withHandle_some hsome, hcontains]
  · exact hrecorded.after_eq s' ((value_attemptAll depth {} actions).trans hs')

/-- The handle `a` is made scoped. The listener of `b` releases it, and makes `c` scoped and drops it; later
`a` is dropped as well, and then the signal. -/
def parting : List SignalAction :=
  [.connect "a" silent, .connect "b" fun _ _ => [.release "a", .scope "c", .drop "c"],
    .connect "c" silent, .scope "a", .emit "x", .drop "a", .dropSignal]

/-- In the middle of the emission, `c` is scoped and `a` is not any more. So the drop of `c` takes its
listener away at once, and the drop of `a` leaves its listener attached. After the run the signal is gone,
and the handle `b` tells so. -/
theorem listeners_of_run_parting :
    let moves := (attemptAll 1 {} parting).moves
    (moves.take 11 <+: moves ∧ Holds "c" 2 (moves.take 11) ∧ Scoped "c" (moves.take 11) ∧
      ¬ Scoped "a" (moves.take 11)) ∧
    (moves.take 12 <+: moves ∧ (after {} (moves.take 12)).signal.ids = [0, 1] ∧
      ¬ Attached (2, ⟨"c", silent⟩) (moves.take 12)) ∧
    (moves.take 16 <+: moves ∧ (after {} (moves.take 16)).handles.get? "a" = none ∧
      Attached (0, ⟨"a", silent⟩) (moves.take 16)) ∧
    (moves <+: moves ∧ (after {} moves).signal.slots = [] ∧
      ((after {} moves).act (.disconnect "b")).2 = .flag false) := by
  intro moves
  obtain ⟨-, hscoping, -⟩ := listeners_of_run 1 parting (List.take_prefix 11 moves)
  obtain ⟨⟨-, -, hdropping⟩, -⟩ := listeners_of_run 1 parting (List.take_prefix 12 moves)
  obtain ⟨⟨-, -, hparted⟩, -⟩ := listeners_of_run 1 parting (List.take_prefix 16 moves)
  obtain ⟨-, -, -, hend, -⟩ := listeners_of_run 1 parting (List.prefix_refl moves)
  have hgone : SignalMove.Gone moves := ⟨by decide, by decide⟩
  have hc := (hscoping "c" ⟨2, true⟩).1 rfl
  have ha := (hscoping "a" ⟨0, false⟩).1 rfl
  refine ⟨⟨List.take_prefix 11 moves, hc.1, hc.2.1 rfl, fun h => Bool.false_ne_true (ha.2.2 h)⟩,
    ⟨List.take_prefix 12 moves, rfl, fun h => ?_⟩, ⟨List.take_prefix 16 moves, rfl, ?_⟩,
    List.prefix_refl moves, (hend hgone).1, ((hend hgone).2 "b" ⟨1, false⟩ rfl).1 rfl⟩
  · have hlive : ¬ SignalMove.Gone (moves.take 12) := fun hgone => absurd hgone.1 (by decide)
    have hid : 2 ∈ (after {} (moves.take 12)).signal.ids := List.mem_map_of_mem ((hdropping hlive _).2 h)
    exact absurd hid (by decide)
  · have hlive : ¬ SignalMove.Gone (moves.take 16) := fun hgone => absurd hgone.1 (by decide)
    exact (hparted hlive _).1 List.mem_cons_self

end Recalc.SignalSession
