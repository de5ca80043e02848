import Mathlib.Data.List.Basic
import Recalc.Signal.Session
import Recalc.Trace

/-!
# The moves of a signal in use

Whatever is done to a signal is made up of a few moves: an emission begins or ends, a listener is called,
an action that is not an emission is performed, and what a listener did is entered into the history. Each
move leads from one session to another (`SignalSession.make`), so the moves made so far tell how the
session came about.

`SignalSession.attempt` performs an action and records its moves. It has the same results as `perform`
(`value_attempt`). Of an emission that does not end within the depth allowed it still tells the moves made
until then.
-/

namespace Recalc

/-- A step in the use of a signal. -/
inductive SignalMove where
  /-- An emission of a text begins. -/
  | began (text : String)
  /-- A listener is called with a text. -/
  | call (slot : SlotId) (listener : SignalListener) (text : String)
  /-- An action is performed that is not an emission, or an emission on a signal that is gone. -/
  | act (action : SignalAction)
  /-- What a listener that was called did is entered into the history. -/
  | note (slot : SlotId) (name : String) (action : SignalAction) (reply : SignalReply)
  /-- The emission begun last among those that have not ended ends. -/
  | ended

namespace SignalMove

/-- Whether the signal is dropped with a move. -/
def isDropSignal : SignalMove → Bool
  | .act .dropSignal => true
  | _ => false

/-- Whether an emission begins with a move. -/
def isBegan : SignalMove → Bool
  | .began _ => true
  | _ => false

/-- Whether an emission ends with a move. -/
def isEnded : SignalMove → Bool
  | .ended => true
  | _ => false

/-- The name whose handle a move makes, drops, or makes scoped or plain. -/
def handled? : SignalMove → Option String
  | .act (.connect name _) | .act (.drop name) | .act (.scope name) | .act (.release name) => some name
  | _ => none

end SignalMove

/-- A computation that records its moves and may have no result. -/
abbrev SignalAttempt (α : Type) := OptionT (Traced SignalMove) α

namespace SignalSession

variable {s s' : SignalSession} {depth : Nat} {action : SignalAction} {text : String}

/-- Make a move. -/
def make (s : SignalSession) : SignalMove → SignalSession
  | .began _ => s.beginEmission
  | .call slot listener text => (s.beginCall slot listener text).1
  | .act action => (s.act action).1
  | .note slot name action reply => s.log (.acted slot name action reply)
  | .ended => s.endEmission

/-- Make moves one after the other. -/
def after (s : SignalSession) (moves : List SignalMove) : SignalSession := moves.foldl make s

/-- Make a move and record it. -/
def step (s : SignalSession) (move : SignalMove) : SignalAttempt SignalSession :=
  OptionT.mk ⟨some (s.make move), [move]⟩

/-- How often a listener has been called. -/
def callsOf (s : SignalSession) (slot : SlotId) : Nat := (s.calls.get? slot).getD 0

/-- Perform an action and record the moves; no result if the depth is not enough. -/
def attempt : (depth : Nat) → SignalSession → SignalAction → SignalAttempt (SignalSession × SignalReply)
  | 0, s, .emit text =>
    if s.dropped then (·, .noSignal) <$> s.step (.act (.emit text)) else OptionT.mk ⟨none, []⟩
  | depth + 1, s, .emit text =>
    if s.dropped then (·, .noSignal) <$> s.step (.act (.emit text))
    else do
      let begun ← s.step (.began text)
      let served ← s.signal.slots.foldlM (fun s slot => do
        let called ← s.step (.call slot.1 slot.2 text)
        (slot.2.respond (s.callsOf slot.1) text).foldlM (fun s action => do
          let (s, reply) ← attempt depth s action
          s.step (.note slot.1 slot.2.name action reply)) called) begun
      (·, .done) <$> served.step .ended
  | _, s, action => (·, (s.act action).2) <$> s.step (.act action)

end SignalSession

namespace SignalAttempt

variable {α β : Type}

/-- The result, if there is one. -/
def value (t : SignalAttempt α) : Option α := (OptionT.run t).value

/-- The moves made. -/
def moves (t : SignalAttempt α) : List SignalMove := (OptionT.run t).events

@[simp] theorem value_pure (a : α) : value (pure a) = some a := rfl

@[simp] theorem moves_pure (a : α) : moves (pure a) = [] := rfl

@[simp] theorem value_step (s : SignalSession) (move : SignalMove) :
    value (s.step move) = some (s.make move) := rfl

@[simp] theorem moves_step (s : SignalSession) (move : SignalMove) : moves (s.step move) = [move] := rfl

/-- Attempts one after the other have a result if both have one. -/
@[simp] theorem value_bind (t : SignalAttempt α) (f : α → SignalAttempt β) :
    value (t >>= f) = (value t).bind fun a => value (f a) := by
  unfold value
  rw [OptionT.run_bind, Option.elimM, Traced.value_bind]
  cases t.run.value <;> rfl

/-- Attempts one after the other make the moves of the first and, if that has a result, those of the second.
-/
theorem moves_bind (t : SignalAttempt α) (f : α → SignalAttempt β) :
    moves (t >>= f) = moves t ++ (value t).elim [] fun a => moves (f a) := by
  unfold value moves
  rw [OptionT.run_bind, Option.elimM, Traced.events_bind]
  cases t.run.value <;> rfl

/-- Mapping the result of an attempt. -/
@[simp] theorem value_map (f : α → β) (t : SignalAttempt α) : value (f <$> t) = (value t).map f := by
  rw [map_eq_pure_bind, value_bind]
  cases value t <;> rfl

/-- Mapping the result of an attempt changes none of its moves. -/
@[simp] theorem moves_map (f : α → β) (t : SignalAttempt α) : moves (f <$> t) = moves t := by
  rw [map_eq_pure_bind, moves_bind]
  cases value t <;> simp

/-- The result of a fold is the fold of the results. -/
theorem value_foldlM (f : β → α → SignalAttempt β) (b : β) (as : List α) :
    value (as.foldlM f b) = as.foldlM (fun b a => value (f b a)) b := by
  induction as generalizing b with
  | nil => rfl
  | cons a as ih =>
    rw [List.foldlM_cons, List.foldlM_cons, value_bind]
    exact congrArg ((value (f b a)).bind ·) (funext ih)

end SignalAttempt

namespace SignalSession

open SignalAttempt

variable {s s' : SignalSession} {depth : Nat} {action : SignalAction} {reply : SignalReply} {text : String}

/-! ## Attempts and results -/

/-- Whether an action calls listeners: it is an emission, and the signal is not gone. -/
def Emits (s : SignalSession) (action : SignalAction) : Prop :=
  s.dropped = false ∧ ∃ text, action = .emit text

/-- What is answered to an action that calls no listeners. -/
def plainReply (s : SignalSession) : SignalAction → SignalReply
  | .emit _ => .noSignal
  | action => (s.act action).2

/-- An action that does not emit has its reply at every depth. -/
theorem perform_of_not_emits (h : ¬ s.Emits action) (depth : Nat) :
    s.perform depth action = some ((s.act action).1, s.plainReply action) := by
  cases action with
  | emit text =>
    have hgone : s.dropped = true := Bool.not_eq_false _ ▸ fun hlive => h ⟨hlive, text, rfl⟩
    cases depth <;> exact if_pos hgone
  | _ => cases depth <;> rfl

/-- An action that does not emit is a single move. -/
theorem attempt_of_not_emits (h : ¬ s.Emits action) (depth : Nat) :
    s.attempt depth action = (·, s.plainReply action) <$> s.step (.act action) := by
  cases action with
  | emit text =>
    have hgone : s.dropped = true := Bool.not_eq_false _ ▸ fun hlive => h ⟨hlive, text, rfl⟩
    cases depth <;> exact if_pos hgone
  | _ => cases depth <;> rfl

/-- An action of a listener that was called. -/
def answer (depth : Nat) (slot : SlotId × SignalListener) (s : SignalSession) (action : SignalAction) :
    SignalAttempt SignalSession :=
  s.attempt depth action >>= fun r => r.1.step (.note slot.1 slot.2.name action r.2)

/-- A call of a listener with all that it does. -/
def serve (depth : Nat) (text : String) (s : SignalSession) (slot : SlotId × SignalListener) :
    SignalAttempt SignalSession :=
  s.step (.call slot.1 slot.2 text) >>=
    (slot.2.respond (s.callsOf slot.1) text).foldlM (answer depth slot)

/-- An emission begins, serves the listeners connected then, one after the other, and ends. -/
theorem attempt_emit (hlive : s.dropped = false) (depth : Nat) (text : String) :
    s.attempt (depth + 1) (.emit text) =
      s.step (.began text) >>= fun begun =>
        s.signal.slots.foldlM (serve depth text) begun >>= fun served =>
          (·, .done) <$> served.step .ended :=
  if_neg (hlive ▸ Bool.false_ne_true)

/-- Recording the moves makes no difference to the result. -/
theorem value_attempt (depth : Nat) (s : SignalSession) (action : SignalAction) :
    (s.attempt depth action).value = s.perform depth action := by
  induction depth generalizing s action with
  | zero =>
    by_cases h : s.Emits action
    · obtain ⟨hlive, text, rfl⟩ := h
      have hne : ¬ s.dropped = true := hlive ▸ Bool.false_ne_true
      rw [attempt, perform, if_neg hne, if_neg hne]
      rfl
    · rw [attempt_of_not_emits h, perform_of_not_emits h]
      rfl
  | succ depth ih =>
    by_cases h : s.Emits action
    · obtain ⟨hlive, text, rfl⟩ := h
      have hanswer : ∀ slot s action, value (answer depth slot s action) =
          (s.perform depth action).bind fun r =>
            some (r.1.log (.acted slot.1 slot.2.name action r.2)) := by
        intro slot s action
        rw [answer, value_bind]
        exact congrArg (Option.bind · _) (ih s action)
      have hserve : ∀ s slot, value (serve depth text s slot) =
          (slot.2.respond (s.callsOf slot.1) text).foldlM (fun s action =>
            (s.perform depth action).bind fun r =>
              some (r.1.log (.acted slot.1 slot.2.name action r.2)))
            (s.beginCall slot.1 slot.2 text).1 := by
        intro s slot
        rw [serve, value_bind, value_step, Option.bind_some, value_foldlM]
        simp only [hanswer]
        rfl
      rw [attempt_emit hlive, value_bind, value_step, Option.bind_some, value_bind, value_foldlM,
        perform, if_neg (hlive ▸ Bool.false_ne_true)]
      simp only [hserve]
      rfl
    · rw [attempt_of_not_emits h, perform_of_not_emits h]
      rfl

/-! ## Moves lead to results -/

@[simp] theorem after_nil (s : SignalSession) : s.after [] = s := rfl

@[simp] theorem after_cons (s : SignalSession) (m : SignalMove) (ms : List SignalMove) :
    s.after (m :: ms) = (s.make m).after ms := rfl

/-- Moves can be cut anywhere. -/
theorem after_append (s : SignalSession) (ms ms' : List SignalMove) :
    s.after (ms ++ ms') = (s.after ms).after ms' := List.foldl_append

/-- Whether a move can be made: no emission begins on a signal that is gone, and none ends unless one is in
progress. -/
def Allows (s : SignalSession) : SignalMove → Prop
  | .began _ => s.dropped = false
  | .ended => 0 < s.running
  | _ => True

/-- The moves can be made one after the other. -/
def Course : SignalSession → List SignalMove → Prop
  | _, [] => True
  | s, m :: ms => s.Allows m ∧ Course (s.make m) ms

/-- A course of moves is one of a first part and, after that, of the rest. -/
theorem course_append {ms ms' : List SignalMove} :
    s.Course (ms ++ ms') ↔ s.Course ms ∧ (s.after ms).Course ms' := by
  induction ms generalizing s with
  | nil => simp [Course]
  | cons m ms ih => rw [List.cons_append, Course, Course, ih, after_cons, and_assoc]

/-! ## More depth makes no difference -/

/-- A fold that has a result has the same one with steps that have more results. -/
theorem foldlM_mono {β γ : Type} {f g : β → γ → Option β}
    (hfg : ∀ b c r, f b c = some r → g b c = some r) (cs : List γ) {b r : β}
    (h : cs.foldlM f b = some r) : cs.foldlM g b = some r := by
  induction cs generalizing b with
  | nil => exact h
  | cons c cs ih =>
    rw [List.foldlM_cons] at h ⊢
    obtain ⟨b', hfirst, hrest⟩ := Option.bind_eq_some_iff.1 h
    exact Option.bind_eq_some_iff.2 ⟨b', hfg b c b' hfirst, ih hrest⟩

/-- What ends within some depth ends within more depth, with the same result. -/
theorem perform_succ {r : SignalSession × SignalReply} (h : s.perform depth action = some r) :
    s.perform (depth + 1) action = some r := by
  induction depth generalizing s action r with
  | zero =>
    by_cases hemits : s.Emits action
    · obtain ⟨hlive, text, rfl⟩ := hemits
      rw [perform, if_neg (hlive ▸ Bool.false_ne_true)] at h
      cases h
    · rwa [perform_of_not_emits hemits] at h ⊢
  | succ depth ih =>
    by_cases hemits : s.Emits action
    · obtain ⟨hlive, text, rfl⟩ := hemits
      have hne : ¬ s.dropped = true := hlive ▸ Bool.false_ne_true
      rw [perform, if_neg hne] at h ⊢
      obtain ⟨served, hserved, hended⟩ := Option.bind_eq_some_iff.1 h
      refine Option.bind_eq_some_iff.2 ⟨served, foldlM_mono (fun s slot s' hs' => ?_) _ hserved, hended⟩
      refine foldlM_mono (fun s action s' hs' => ?_) _ hs'
      obtain ⟨r', hr', hnoted⟩ := Option.bind_eq_some_iff.1 hs'
      exact Option.bind_eq_some_iff.2 ⟨r', ih hr', hnoted⟩
    · rwa [perform_of_not_emits hemits] at h ⊢

/-- What has a result at some depth has the same result at every greater depth. -/
theorem perform_of_le {depth' : Nat} (hle : depth ≤ depth') {r : SignalSession × SignalReply}
    (h : s.perform depth action = some r) : s.perform depth' action = some r := by
  induction hle with
  | refl => exact h
  | step _ ih => exact perform_succ ih

/-! ## Runs -/

/-- Perform actions one after the other, forgetting their replies. -/
def performAll (depth : Nat) (s : SignalSession) (actions : List SignalAction) : Option SignalSession :=
  actions.foldlM (fun s action => Prod.fst <$> s.perform depth action) s

/-- Perform actions one after the other and record the moves. -/
def attemptAll (depth : Nat) (s : SignalSession) (actions : List SignalAction) :
    SignalAttempt SignalSession :=
  actions.foldlM (fun s action => Prod.fst <$> s.attempt depth action) s

/-- An attempt of several actions has the result of performing them. -/
theorem value_attemptAll (depth : Nat) (s : SignalSession) (actions : List SignalAction) :
    (s.attemptAll depth actions).value = s.performAll depth actions := by
  unfold attemptAll performAll
  rw [value_foldlM]
  simp only [value_map, value_attempt]
  rfl

end SignalSession

end Recalc
