import Recalc.Proofs.Signal.Actions
import Recalc.Proofs.Signal.Past

/-!
# Which listeners are connected

The sessions that moves lead to are as the moves tell (`Accounts`): the handles are those that the names hold,
scoped or plain as the moves say, and the connected listeners are those attached, in the order in which they
were connected. A signal that is gone has no listeners.

`Accounts.concat` shows that one more move keeps this, whichever it is, so it holds after all moves
(`accounts_of_course`), also in the middle of an emission.
-/

namespace Recalc.SignalSession

open SignalMove

variable {s : SignalSession} {ms : List SignalMove} {m : SignalMove} {action : SignalAction}
  {x : SlotId × SignalListener} {slot : SlotId} {name : String} {h : SignalHandle}

/-! ## What a move changes -/

/-- A move drops the signal if it is the action to do so. -/
theorem dropped_make (s : SignalSession) (m : SignalMove) :
    (s.make m).dropped = (m.isDropSignal || s.dropped) := by
  cases m with
  | act action => rw [make, act_eq]
  | ended => rw [make, endEmission, settle_eq]; rfl
  | began text | call slot listener text | note slot name action reply => rfl

/-- Actions neither begin nor end emissions. -/
theorem running_act (s : SignalSession) (action : SignalAction) :
    (s.act action).1.running = s.running := by rw [act_eq]

/-- The end of an emission takes one from those in progress. -/
theorem running_endEmission (s : SignalSession) : s.endEmission.running = s.running - 1 := by
  rw [endEmission, settle_eq]
  rfl

/-- An emission in progress is one that began and has not ended. -/
theorem running_make (hallows : s.Allows m) :
    (s.make m).running + (if m.isEnded then 1 else 0) = s.running + if m.isBegan then 1 else 0 := by
  cases m with
  | act action => exact running_act s action
  | ended =>
    have hpositive : 0 < s.running := hallows
    have hended : (s.make .ended).running = s.running - 1 := running_endEmission s
    simp only [isEnded, isBegan, if_true, Bool.false_eq_true, if_false]
    omega
  | began text | call slot listener text | note slot name action reply => rfl

/-- A move other than an action leaves the handles and the next slot as they are. -/
theorem make_frame (hact : ∀ action, m ≠ .act action) :
    (s.make m).handles = s.handles ∧ (s.make m).nextSlot = s.nextSlot := by
  cases m with
  | act action => exact absurd rfl (hact action)
  | ended => rw [make, endEmission, settle_eq]; exact ⟨rfl, rfl⟩
  | began text | call slot listener text | note slot name action reply => exact ⟨rfl, rfl⟩

/-- A move that does not lead to a signal that is gone leaves the listeners as they are, unless it is an
action other than to drop the signal. -/
theorem signal_make (hact : ∀ action, m = .act action → action = .dropSignal) (hgone : ¬ (s.make m).Gone) :
    (s.make m).signal = s.signal := by
  cases m with
  | began text | call slot listener text | note slot name action reply => rfl
  | ended =>
    rw [make, endEmission, settle_of_not_gone]
    · rfl
    · exact fun h => hgone (gone_settle.2 h)
  | act action =>
    obtain rfl := hact action rfl
    rw [make, act] at hgone ⊢
    split_ifs at hgone ⊢ with hdropped
    · rfl
    · rw [settle_of_not_gone]
      exact fun h => hgone (gone_settle.2 h)

/-- A signal that is gone stays gone. -/
theorem gone_make (hallows : s.Allows m) (hgone : s.Gone) : (s.make m).Gone := by
  obtain ⟨hdropped, hrunning⟩ := hgone
  refine ⟨by rw [dropped_make, hdropped, Bool.or_true], ?_⟩
  have hmake := running_make hallows
  cases m with
  | began text => exact absurd hdropped (hallows ▸ Bool.false_ne_true)
  | ended => exact absurd hrunning (Nat.ne_of_gt hallows)
  | act action => exact hmake.trans hrunning
  | call slot listener text | note slot name action reply => exact hrunning

/-! ## The account of the connections -/

/-- What moves tell of the session that they lead to: whether the signal has been dropped, how many
emissions are in progress, how many connections were made, and the handle of each name. The listeners are
those attached, in the order of the connections, and there are none once the signal is gone. -/
structure Accounts (ms : List SignalMove) (s : SignalSession) : Prop where
  dropped_eq : s.dropped = isDropped ms
  running_eq : s.running + ms.countP isEnded = ms.countP isBegan
  nextSlot_eq : s.nextSlot = (listeners ms).length
  records : ∀ name, Records ms name (s.handles.get? name)
  sublist : s.signal.slots.Sublist (connections ms)
  mem_iff : ¬ s.Gone → ∀ x, x ∈ s.signal.slots ↔ Attached x ms
  empty : s.Gone → s.signal.slots = []

namespace Accounts

/-- Before any move there are no listeners and no handles. -/
theorem start : Accounts [] {} where
  dropped_eq := rfl
  running_eq := rfl
  nextSlot_eq := rfl
  records := Records.nil
  sublist := List.Sublist.refl _
  mem_iff := fun _ _ => iff_of_false List.not_mem_nil not_since_nil
  empty := fun _ => rfl

/-- Whether the signal is gone is told by the moves. -/
theorem gone_iff (accounts : Accounts ms s) : s.Gone ↔ SignalMove.Gone ms := by
  have hrunning := accounts.running_eq
  rw [SignalSession.Gone, SignalMove.Gone, accounts.dropped_eq]
  refine and_congr_right fun _ => ?_
  omega

/-- Each handle is to a connection made under its name. -/
theorem exists_connection (accounts : Accounts ms s) (hsome : s.handles.get? name = some h) :
    ∃ respond, (h.slot, ⟨name, respond⟩) ∈ connections ms :=
  SignalMove.exists_connection ((accounts.records name h).1 hsome).1

/-- The slot of each handle has been given out. -/
theorem handle_lt (accounts : Accounts ms s) (hsome : s.handles.get? name = some h) :
    h.slot < s.nextSlot := by
  obtain ⟨respond, hx⟩ := accounts.exists_connection hsome
  exact accounts.nextSlot_eq ▸ slot_lt hx

/-- Slots tell connections apart. -/
theorem ids_nodup (accounts : Accounts ms s) : s.signal.ids.Nodup :=
  (nodup_connections ms).sublist (accounts.sublist.map _)

/-- The moves tell which connection an action adds. -/
theorem adds?_eq (accounts : Accounts ms s) (action : SignalAction) :
    s.adds? action = connected? ms (.act action) := by
  cases action with
  | connect name respond =>
    rw [adds?, connected?, accounts.dropped_eq, accounts.nextSlot_eq]
    rfl
  | _ => exact (connected?_eq_none rfl).symm

/-- The moves tell which connections an action ends. -/
theorem severs_iff (accounts : Accounts ms s) (slot : SlotId) (action : SignalAction) :
    s.severs slot action = true ↔ Ends slot ms (.act action) := by
  have hlive : (!s.dropped) = true ↔ isDropped ms = false := by
    rw [accounts.dropped_eq, Bool.not_eq_true']
  cases action with
  | disconnect name =>
    rw [severs, decide_eq_true_iff, (accounts.records name).plain_iff, Ends.disconnect_iff]
  | drop name => rw [severs, decide_eq_true_iff, (accounts.records name).scoped_iff, Ends.drop_iff]
  | connect name respond =>
    rw [severs, Bool.and_eq_true, decide_eq_true_iff, (accounts.records name).scoped_iff, hlive,
      Ends.connect_iff]
  | disconnectAll => rw [severs, hlive, Ends.disconnectAll_iff]
  | _ =>
    refine iff_of_false Bool.false_ne_true fun h => ?_
    cases h

/-- The listeners after a move that does not lead to a signal that is gone: those whose connection it does not
end, and the one it connects. -/
theorem slots_make (accounts : Accounts ms s) (hgone : ¬ (s.make m).Gone) : ∃ keeps : SlotId → Bool,
    (s.make m).signal.slots = s.signal.slots.filter (keeps ·.1) ++ (connected? ms m).toList ∧
      ∀ slot, keeps slot = true ↔ ¬ Ends slot ms m := by
  by_cases hact : ∀ action, m = .act action → action = .dropSignal
  · have hidle : m.listener? = none ∧ ∀ slot, ¬ Ends slot ms m := by
      cases m with
      | act action =>
        obtain rfl := hact action rfl
        refine ⟨rfl, fun slot h => ?_⟩
        cases h
      | _ =>
        refine ⟨rfl, fun slot h => ?_⟩
        cases h
    refine ⟨fun _ => true, ?_, fun slot => iff_of_true rfl (hidle.2 slot)⟩
    rw [signal_make hact hgone, connected?_eq_none hidle.1, List.filter_true]
    exact (List.append_nil _).symm
  · push Not at hact
    obtain ⟨action, rfl, hne⟩ := hact
    refine ⟨fun slot => !s.severs slot action, ?_, fun slot => ?_⟩
    · rw [← accounts.adds?_eq]
      exact slots_act (fun _ _ => accounts.handle_lt) hne
    · rw [Bool.not_eq_true', ← Bool.not_eq_true, accounts.severs_iff]

/-- When a move leads to a signal that is gone, no listeners are left. -/
theorem slots_make_of_gone (accounts : Accounts ms s) (hgone : (s.make m).Gone) :
    (s.make m).signal.slots = [] := by
  cases m with
  | began text => exact absurd hgone.2 (Nat.succ_ne_zero _)
  | call slot listener text | note slot name action reply => exact accounts.empty hgone
  | ended => rw [make, endEmission, settle_of_gone (gone_settle.1 hgone)]
  | act action =>
    by_cases hdrop : action = .dropSignal
    · subst hdrop
      rw [make, act] at hgone ⊢
      split_ifs at hgone ⊢ with hdropped
      · exact accounts.empty hgone
      · rw [settle_of_gone (gone_settle.1 hgone)]
    · have hlive : (SignalMove.act action).isDropSignal = false := by
        cases action with
        | dropSignal => exact absurd rfl hdrop
        | _ => rfl
      have hdropped : s.dropped = true := by
        have hmade : (s.make (.act action)).dropped = true := hgone.1
        rwa [dropped_make, hlive] at hmade
      have hadds : s.adds? action = none := by
        cases action with
        | connect name respond => exact if_pos hdropped
        | _ => rfl
      rw [make, slots_act (fun _ _ => accounts.handle_lt) hdrop, hadds,
        accounts.empty ⟨hdropped, (running_act s action).symm.trans hgone.2⟩]
      rfl

/-- After an action that makes, drops or changes the handle of a name, the handle is as the moves tell. -/
theorem records_act (accounts : Accounts ms s) (hname : (SignalMove.act action).handled? = some name) :
    Records (ms ++ [.act action]) name ((s.act action).1.handles.get? name) := by
  have hbefore := accounts.records name
  cases action with
  | connect new respond =>
    obtain rfl := Option.some.inj hname
    cases hdropped : s.dropped with
    | true =>
      rw [act, if_pos hdropped]
      exact hbefore.connect_of_dropped (accounts.dropped_eq ▸ hdropped) _ _
    | false =>
      rw [handles_connect hdropped, OrderedMap.get?_insert, if_pos rfl]
      refine .connect respond ?_
      rw [← accounts.adds?_eq, adds?, if_neg (hdropped ▸ Bool.false_ne_true)]
  | drop other =>
    obtain rfl := Option.some.inj hname
    rw [get?_handles_drop, if_pos rfl]
    exact .drop
  | scope other =>
    obtain rfl := Option.some.inj hname
    rw [get?_handles_scope, if_pos rfl]
    exact hbefore.scope
  | release other =>
    obtain rfl := Option.some.inj hname
    rw [get?_handles_release, if_pos rfl]
    exact hbefore.release
  | _ => cases hname

/-- After a move the handle of each name is as the moves tell. -/
theorem records_make (accounts : Accounts ms s) (m : SignalMove) (name : String) :
    Records (ms ++ [m]) name ((s.make m).handles.get? name) := by
  by_cases hact : ∃ action, m = .act action
  · obtain ⟨action, rfl⟩ := hact
    by_cases hname : (SignalMove.act action).handled? = some name
    · exact accounts.records_act hname
    · rw [make, get?_handles_act hname]
      exact (accounts.records name).calm hname
  · have hcalm : m.handled? ≠ some name := by
      cases m with
      | act action => exact absurd ⟨action, rfl⟩ hact
      | _ => exact nofun
    rw [(make_frame fun a ha => hact ⟨a, ha⟩).1]
    exact (accounts.records name).calm hcalm

/-- After a move as many slots have been given out as connections were made. -/
theorem nextSlot_make (accounts : Accounts ms s) (m : SignalMove) :
    (s.make m).nextSlot = (listeners (ms ++ [m])).length := by
  rw [listeners_concat, List.length_append, ← accounts.nextSlot_eq]
  by_cases hact : ∃ action, m = .act action
  · obtain ⟨action, rfl⟩ := hact
    rw [← accounts.adds?_eq]
    refine (congrArg SignalSession.nextSlot (act_eq s action)).trans (congrArg (s.nextSlot + ·) ?_)
    cases s.adds? action <;> rfl
  · have hnone : m.listener? = none := by
      cases m with
      | act action => exact absurd ⟨action, rfl⟩ hact
      | _ => rfl
    rw [(make_frame fun a ha => hact ⟨a, ha⟩).2, connected?_eq_none hnone]
    rfl

/-- One more move keeps the account right. -/
theorem concat (accounts : Accounts ms s) (hallows : s.Allows m) : Accounts (ms ++ [m]) (s.make m) where
  dropped_eq := by rw [dropped_make, isDropped_concat, accounts.dropped_eq, Bool.or_comm]
  running_eq := by
    have hbefore := accounts.running_eq
    have hmake := running_make hallows
    rw [List.countP_append, List.countP_append, List.countP_singleton, List.countP_singleton]
    omega
  nextSlot_eq := accounts.nextSlot_make m
  records := accounts.records_make m
  sublist := by
    rw [connections_concat]
    by_cases hgone : (s.make m).Gone
    · rw [accounts.slots_make_of_gone hgone]
      exact List.nil_sublist _
    · obtain ⟨keeps, hslots, -⟩ := accounts.slots_make hgone
      rw [hslots]
      exact (List.filter_sublist.trans accounts.sublist).append (List.Sublist.refl _)
  mem_iff := by
    intro hgone x
    have hbefore : ¬ s.Gone := fun h => hgone (gone_make hallows h)
    obtain ⟨keeps, hslots, hkeeps⟩ := accounts.slots_make hgone
    rw [hslots, List.mem_append, List.mem_filter, Option.mem_toList, Attached, since_concat, hkeeps,
      accounts.mem_iff hbefore, or_comm]
    rfl
  empty := accounts.slots_make_of_gone

end Accounts

/-- The account is right after any moves that can be made one after the other. -/
theorem accounts_of_course (hcourse : ({} : SignalSession).Course ms) : Accounts ms (after {} ms) := by
  induction ms using List.reverseRecOn with
  | nil => exact .start
  | append_singleton ms m ih =>
    obtain ⟨hms, hallows, -⟩ := course_append.1 hcourse
    rw [after_append]
    exact (ih hms).concat hallows

end Recalc.SignalSession
