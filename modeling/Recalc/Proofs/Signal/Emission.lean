import Recalc.Proofs.Signal.Connections

/-!
# Whom an emission calls

An emission calls the listeners connected when it begins, each of them once and in the order in which they
were connected, and no others, whatever they do meanwhile. An emission that a listener begins runs to its
end before the listener goes on.

The moves of an emission are bracketed: what a listener does, nested emissions included, lies between its
call and the call of the next one (`Calls`). That every attempt with a result has such moves
(`recorded_attempt`) is shown by induction on the depth of nested emissions.
-/

namespace Recalc

/-- A call of a listener: its slot, the listener and the text. -/
abbrev SignalCall := SlotId × SignalListener × String

/-- The moves make these calls in this order, apart from those made by emissions that begin in them; and
every emission that begins in them ends in them. -/
inductive Calls : List SignalCall → List SignalMove → Prop
  | nil : Calls [] []
  | act {calls : List SignalCall} {ms : List SignalMove} (action : SignalAction) (rest : Calls calls ms) :
    Calls calls (.act action :: ms)
  | note {calls : List SignalCall} {ms : List SignalMove} (slot : SlotId) (name : String)
    (action : SignalAction) (reply : SignalReply) (rest : Calls calls ms) :
    Calls calls (.note slot name action reply :: ms)
  | call {calls : List SignalCall} {ms : List SignalMove} (slot : SlotId) (listener : SignalListener)
    (text : String) (rest : Calls calls ms) :
    Calls ((slot, listener, text) :: calls) (.call slot listener text :: ms)
  | emission {inner calls : List SignalCall} {body ms : List SignalMove} (text : String)
    (within : Calls inner body) (rest : Calls calls ms) :
    Calls calls (.began text :: (body ++ .ended :: ms))

/-- The calls of two runs of moves are the calls of both together. -/
theorem Calls.append {calls calls' : List SignalCall} {ms ms' : List SignalMove} (h : Calls calls ms)
    (h' : Calls calls' ms') : Calls (calls ++ calls') (ms ++ ms') := by
  induction h with
  | nil => exact h'
  | act action _ ih => exact .act action ih
  | note slot name action reply _ ih => exact .note slot name action reply ih
  | call slot listener text _ ih => exact .call slot listener text ih
  | emission text within _ _ ih =>
    rw [List.cons_append, List.append_assoc]
    exact .emission text within ih

namespace SignalSession

variable {s s' : SignalSession} {ms ms' : List SignalMove} {calls calls' : List SignalCall}
  {text : String}

/-- The calls that an emission of a text owes to the listeners. -/
def owed (s : SignalSession) (text : String) : List SignalCall :=
  s.signal.slots.map fun slot => (slot.1, slot.2, text)

/-- The moves make these calls, apart from those of emissions that begin in them. Each of these emissions
ends in them as well, and in between it makes the calls that it owed when it began. -/
structure Complete (s : SignalSession) (ms : List SignalMove) (calls : List SignalCall) : Prop where
  calls : Calls calls ms
  emission : ∀ pre text post, ms = pre ++ .began text :: post →
    ∃ body rest, post = body ++ .ended :: rest ∧ Calls ((s.after pre).owed text) body

namespace Complete

/-- No moves make no calls, and no emission begins in them. -/
theorem nil (s : SignalSession) : Complete s [] [] where
  calls := .nil
  emission := fun pre text post h => by simp at h

/-- Moves that are complete for their calls are so one after the other. -/
theorem append (h : Complete s ms calls) (h' : Complete (s.after ms) ms' calls') :
    Complete s (ms ++ ms') (calls ++ calls') where
  calls := h.calls.append h'.calls
  emission := by
    intro pre text post hsplit
    rcases List.append_eq_append_iff.1 hsplit with ⟨pre', rfl, hms'⟩ | ⟨post', hms, hpost⟩
    · rw [after_append]
      exact h'.emission pre' text post hms'
    · cases post' with
      | nil =>
        rw [List.append_nil] at hms
        rw [← hms]
        exact h'.emission [] text post hpost.symm
      | cons m post' =>
        obtain ⟨rfl, rfl⟩ := List.cons.inj hpost
        obtain ⟨body, rest, rfl, hbody⟩ := h.emission pre text post' hms
        exact ⟨body, rest ++ ms', List.append_assoc _ _ _, hbody⟩

/-- A single move that begins no emission is complete for its own calls. -/
theorem single {m : SignalMove} (hcalls : Calls calls [m]) (hm : m.isBegan = false) :
    Complete s [m] calls where
  calls := hcalls
  emission := by
    intro pre text post hsplit
    have hmem : SignalMove.began text ∈ [m] := hsplit ▸ List.mem_append_right _ List.mem_cons_self
    rw [← List.mem_singleton.1 hmem] at hm
    cases hm

/-- An emission in which the calls are made that it owes. -/
theorem bracket (h : Complete (s.make (.began text)) ms (s.owed text)) :
    Complete s (.began text :: (ms ++ [.ended])) [] where
  calls := .emission text h.calls .nil
  emission := by
    intro pre text' post hsplit
    cases pre with
    | nil =>
      obtain ⟨hbegan, rfl⟩ := List.cons.inj hsplit
      obtain rfl := SignalMove.began.inj hbegan
      exact ⟨ms, [], rfl, h.calls⟩
    | cons m pre =>
      obtain ⟨rfl, hrest⟩ := List.cons.inj hsplit
      rcases List.append_eq_append_iff.1 hrest with ⟨pre', -, hended⟩ | ⟨post', hms, hpost⟩
      · have hmem : SignalMove.began text' ∈ [SignalMove.ended] :=
          hended ▸ List.mem_append_right _ List.mem_cons_self
        exact absurd (List.mem_singleton.1 hmem) (by simp)
      · cases post' with
        | nil => exact absurd (List.cons.inj hpost).1 (by simp)
        | cons m post' =>
          obtain ⟨rfl, rfl⟩ := List.cons.inj hpost
          obtain ⟨body, rest, rfl, hbody⟩ := h.emission pre text' post' hms
          exact ⟨body, rest ++ [.ended], List.append_assoc _ _ _, hbody⟩

end Complete

end SignalSession

/-! ## Attempts -/

/-- The moves of an attempt can be made one after the other. If it has a result, they lead to it, so many
emissions are then in progress, and the moves make these calls. -/
structure SignalAttempt.Recorded {α : Type} (s : SignalSession) (session : α → SignalSession)
    (running : Nat) (calls : List SignalCall) (t : SignalAttempt α) : Prop where
  course : s.Course t.moves
  after_eq : ∀ a, t.value = some a → s.after t.moves = session a
  running_eq : ∀ a, t.value = some a → (session a).running = running
  complete : ∀ a, t.value = some a → s.Complete t.moves calls

namespace SignalAttempt.Recorded

open SignalSession

variable {α β : Type} {s : SignalSession} {session : α → SignalSession} {running : Nat}
  {calls : List SignalCall} {t : SignalAttempt α}

/-- One move that a session allows is recorded. -/
theorem step {m : SignalMove} (hallows : s.Allows m) (hrunning : (s.make m).running = running)
    (hcomplete : s.Complete [m] calls) : Recorded s id running calls (s.step m) where
  course := ⟨hallows, trivial⟩
  after_eq := fun _ ha => Option.some.inj ha
  running_eq := fun _ ha => Option.some.inj ha ▸ hrunning
  complete := fun _ _ => hcomplete

/-- Two attempts that are recorded are recorded one after the other, also if the first one has no result. -/
theorem bind (h : Recorded s session running calls t) {session' : β → SignalSession} {running' : Nat}
    {calls' : List SignalCall} {f : α → SignalAttempt β}
    (hf : ∀ a, t.value = some a → Recorded (session a) session' running' calls' (f a)) :
    Recorded s session' running' (calls ++ calls') (t >>= f) := by
  cases hvalue : t.value with
  | none =>
    have hnone : ∀ b, (t >>= f).value ≠ some b := fun b hb => by
      rw [value_bind, hvalue] at hb
      cases hb
    refine ⟨?_, (fun b hb => absurd hb (hnone b)), (fun b hb => absurd hb (hnone b)),
      fun b hb => absurd hb (hnone b)⟩
    rw [moves_bind, hvalue, Option.elim_none, List.append_nil]
    exact h.course
  | some a =>
    have hnext := hf a hvalue
    have hmoves : (t >>= f).moves = t.moves ++ (f a).moves := by
      rw [moves_bind, hvalue, Option.elim_some]
    have hresult : (t >>= f).value = (f a).value := by
      rw [value_bind, hvalue, Option.bind_some]
    rw [← h.after_eq a hvalue] at hnext
    constructor
    · rw [hmoves, SignalSession.course_append]
      exact ⟨h.course, hnext.course⟩
    · intro b hb
      rw [hmoves, SignalSession.after_append]
      exact hnext.after_eq b (hresult.symm.trans hb)
    · exact fun b hb => hnext.running_eq b (hresult.symm.trans hb)
    · intro b hb
      rw [hmoves]
      exact (h.complete a hvalue).append (hnext.complete b (hresult.symm.trans hb))

/-- Renaming the result of an attempt changes nothing that is recorded of it. -/
theorem map (h : Recorded s session running calls t) (f : α → β) {session' : β → SignalSession}
    (hf : ∀ a, session' (f a) = session a) : Recorded s session' running calls (f <$> t) := by
  have hvalue : ∀ b, (f <$> t).value = some b → ∃ a, t.value = some a ∧ f a = b := fun b hb =>
    Option.map_eq_some_iff.1 ((value_map f t).symm.trans hb)
  constructor
  · exact (moves_map f t).symm ▸ h.course
  · intro b hb
    obtain ⟨a, ha, rfl⟩ := hvalue b hb
    rw [moves_map, hf]
    exact h.after_eq a ha
  · intro b hb
    obtain ⟨a, ha, rfl⟩ := hvalue b hb
    rw [hf]
    exact h.running_eq a ha
  · intro b hb
    obtain ⟨a, ha, rfl⟩ := hvalue b hb
    rw [moves_map]
    exact h.complete a ha

/-- A run of attempts that leave as many emissions in progress is recorded if each of them is. -/
theorem foldlM {γ : Type} {f : SignalSession → γ → SignalAttempt SignalSession}
    {callsOf : γ → List SignalCall}
    (hf : ∀ s c, s.running = running → Recorded s id running (callsOf c) (f s c)) (cs : List γ)
    (hs : s.running = running) : Recorded s id running (cs.flatMap callsOf) (cs.foldlM f s) := by
  induction cs generalizing s with
  | nil =>
    exact ⟨trivial, (fun _ h => Option.some.inj h), (fun _ h => Option.some.inj h ▸ hs),
      fun _ _ => .nil s⟩
  | cons c cs ih =>
    rw [List.foldlM_cons, List.flatMap_cons]
    have hfirst := hf s c hs
    exact hfirst.bind fun s' hs' => ih (hfirst.running_eq s' hs')

end SignalAttempt.Recorded

namespace SignalSession

open SignalAttempt

variable {s s' : SignalSession} {depth : Nat} {action : SignalAction} {reply : SignalReply}
  {text : String}

/-- An action that does not emit is recorded as a single move without a call. -/
theorem recorded_of_not_emits (h : ¬ s.Emits action) (depth : Nat) :
    Recorded s Prod.fst s.running [] (s.attempt depth action) := by
  rw [attempt_of_not_emits h]
  have hallows : s.Allows (.act action) := trivial
  exact (Recorded.step hallows (running_act s action) (.single (.act action .nil) rfl)).map _ fun _ => rfl

/-- An answer of a listener is recorded as its action, whose calls belong to emissions of its own. -/
theorem recorded_answer (hrecorded : ∀ s action, Recorded s Prod.fst s.running [] (s.attempt depth action))
    (slot : SlotId × SignalListener) (s : SignalSession) (action : SignalAction) :
    Recorded s id s.running [] (answer depth slot s action) := by
  refine (hrecorded s action).bind fun r hr => ?_
  have hallows : r.1.Allows (.note slot.1 slot.2.name action r.2) := trivial
  exact Recorded.step hallows ((hrecorded s action).running_eq r hr) (.single (.note _ _ _ _ .nil) rfl)

/-- Serving one listener is recorded as a call of it. -/
theorem recorded_serve (hrecorded : ∀ s action, Recorded s Prod.fst s.running [] (s.attempt depth action))
    (text : String) (s : SignalSession) (slot : SlotId × SignalListener) :
    Recorded s id s.running [(slot.1, slot.2, text)] (serve depth text s slot) := by
  have hallows : s.Allows (.call slot.1 slot.2 text) := trivial
  have hcall : Recorded s id s.running [(slot.1, slot.2, text)] (s.step (.call slot.1 slot.2 text)) :=
    Recorded.step hallows rfl (.single (.call _ _ _ .nil) rfl)
  have hserved := hcall.bind
    (f := (slot.2.respond (s.callsOf slot.1) text).foldlM (answer depth slot)) fun called hcalled =>
      Recorded.foldlM (fun s action hs => hs ▸ recorded_answer hrecorded slot s action) _
        (hcall.running_eq called hcalled)
  rwa [List.flatMap_eq_nil_iff.2 fun _ _ => rfl, List.append_nil] at hserved

/-- All that happens in an emission between its beginning and its end. -/
def serveAll (depth : Nat) (text : String) (s : SignalSession) : SignalAttempt SignalSession :=
  s.signal.slots.foldlM (serve depth text) (s.make (.began text))

/-- Serving all listeners is recorded as the calls that the emission owes. -/
theorem recorded_serveAll
    (hrecorded : ∀ s action, Recorded s Prod.fst s.running [] (s.attempt depth action)) (text : String)
    (s : SignalSession) :
    Recorded (s.make (.began text)) id (s.running + 1) (s.owed text) (s.serveAll depth text) := by
  have hserved := Recorded.foldlM (s := s.make (.began text))
    (fun s slot hs => hs ▸ recorded_serve hrecorded text s slot) s.signal.slots rfl
  rwa [← List.map_eq_flatMap] at hserved

/-- The moves of an emission are its beginning, those of serving the listeners and, if that has a result, its
end. -/
theorem moves_attempt_emit (hlive : s.dropped = false) (depth : Nat) (text : String) :
    (s.attempt (depth + 1) (.emit text)).moves = .began text ::
      ((s.serveAll depth text).moves ++ (s.serveAll depth text).value.elim [] fun _ => [.ended]) := by
  rw [attempt_emit hlive, moves_bind, value_step, Option.elim_some, moves_step, moves_bind]
  simp only [moves_map, moves_step]
  rfl

/-- An emission has a result if serving the listeners has one. -/
theorem value_attempt_emit (hlive : s.dropped = false) (depth : Nat) (text : String) :
    (s.attempt (depth + 1) (.emit text)).value =
      (s.serveAll depth text).value.map fun served => (served.endEmission, .done) := by
  rw [attempt_emit hlive, value_bind, value_step, Option.bind_some, value_bind, Option.map_eq_bind]
  simp only [value_map, value_step]
  rfl

/-- An emission is recorded without calls of its own: all of its calls lie between its beginning and its end.
-/
theorem recorded_emit (hlive : s.dropped = false)
    (hrecorded : ∀ s action, Recorded s Prod.fst s.running [] (s.attempt depth action)) (text : String) :
    Recorded s Prod.fst s.running [] (s.attempt (depth + 1) (.emit text)) := by
  have hserved := recorded_serveAll hrecorded text s
  have hmoves := moves_attempt_emit hlive depth text
  have hvalue := value_attempt_emit hlive depth text
  have hallows : s.Allows (.began text) := hlive
  cases hresult : (s.serveAll depth text).value with
  | none =>
    rw [hresult, Option.elim_none, List.append_nil] at hmoves
    rw [hresult, Option.map_none] at hvalue
    refine ⟨hmoves ▸ ⟨hallows, hserved.course⟩, ?_, ?_, ?_⟩
    all_goals exact fun r hr => absurd (hr.symm.trans hvalue) (Option.some_ne_none r)
  | some served =>
    rw [hresult, Option.elim_some] at hmoves
    rw [hresult, Option.map_some] at hvalue
    have hafter : (s.make (.began text)).after (s.serveAll depth text).moves = served :=
      hserved.after_eq served hresult
    -- Within the emission one more is in progress, and its end takes that one away again.
    have hrunning : served.running = s.running + 1 := hserved.running_eq served hresult
    have hends : served.Allows .ended := by
      show 0 < served.running
      omega
    have hended : served.endEmission.running = s.running := by
      rw [running_endEmission]
      omega
    refine ⟨?_, fun r hr => ?_, fun r hr => ?_, fun r hr => ?_⟩
    · rw [hmoves]
      exact ⟨hallows, course_append.2 ⟨hserved.course, hafter ▸ ⟨hends, trivial⟩⟩⟩
    · obtain rfl := Option.some.inj (hvalue.symm.trans hr)
      rw [hmoves, after_cons, after_append, hafter]
      rfl
    · obtain rfl := Option.some.inj (hvalue.symm.trans hr)
      exact hended
    · rw [hmoves]
      exact (hserved.complete served hresult).bracket

/-- The moves of an attempt lead to its result, where as many emissions are in progress as before. Only the
emissions among them make calls, each of them those that it owes. -/
theorem recorded_attempt (depth : Nat) (s : SignalSession) (action : SignalAction) :
    Recorded s Prod.fst s.running [] (s.attempt depth action) := by
  induction depth generalizing s action with
  | zero =>
    by_cases h : s.Emits action
    · obtain ⟨hlive, text, rfl⟩ := h
      rw [attempt, if_neg (hlive ▸ Bool.false_ne_true)]
      refine ⟨trivial, ?_, ?_, ?_⟩
      all_goals exact fun r hr => absurd hr.symm (Option.some_ne_none r)
    · exact recorded_of_not_emits h 0
  | succ depth ih =>
    by_cases h : s.Emits action
    · obtain ⟨hlive, text, rfl⟩ := h
      exact recorded_emit hlive ih text
    · exact recorded_of_not_emits h (depth + 1)

/-- The moves of an attempt lead to what performing the action results in. -/
theorem after_attempt (h : s.perform depth action = some (s', reply)) :
    s.after (s.attempt depth action).moves = s' :=
  (recorded_attempt depth s action).after_eq (s', reply) ((value_attempt depth s action).trans h)

/-- The moves of a run lead to its last session, where as many emissions are in progress as in its
first. -/
theorem recorded_attemptAll (depth : Nat) (s : SignalSession) (actions : List SignalAction) :
    Recorded s id s.running [] (s.attemptAll depth actions) := by
  have hone : ∀ (s' : SignalSession) (action : SignalAction), s'.running = s.running →
      Recorded s' id s.running [] (Prod.fst <$> s'.attempt depth action) := fun s' action hs =>
    hs ▸ (recorded_attempt depth s' action).map Prod.fst fun _ => rfl
  have hrun := Recorded.foldlM hone actions rfl
  rwa [List.flatMap_eq_nil_iff.2 fun _ _ => rfl] at hrun

/-! ## Emissions -/

/-- Whether some use of a signal leads to a session, be it in the middle of an emission. -/
def InUse (s : SignalSession) : Prop := ∃ ms, ({} : SignalSession).Course ms ∧ after {} ms = s

/-- No slot of a signal in use is taken twice. -/
theorem InUse.ids_nodup (huse : s.InUse) : s.signal.ids.Nodup := by
  obtain ⟨ms, hcourse, rfl⟩ := huse
  exact (accounts_of_course hcourse).ids_nodup

/-- A course of moves keeps a session in use. -/
theorem InUse.after (huse : s.InUse) (hcourse : s.Course ms) : (s.after ms).InUse := by
  obtain ⟨earlier, hearlier, rfl⟩ := huse
  exact ⟨earlier ++ ms, course_append.2 ⟨hearlier, hcourse⟩, after_append _ _ _⟩

/-- An emission that ends, whatever the listeners do when they are called:

* Between its beginning and its end it calls the listeners connected when it begins, in the order in which
  they were connected, and no others (`owed`), apart from the calls of emissions nested in it.
* So does every emission nested in it, with the listeners connected when that one begins; and it ends
  before the emission around it goes on.
* No listener is connected twice when an emission begins, so none is called twice.

The moves tell all that happens: they lead to the result, which more depth does not change. -/
theorem calls_of_emit (huse : s.InUse) (hlive : s.dropped = false)
    (hends : s.perform depth (.emit text) = some (s', reply)) :
    let ms := (s.attempt depth (.emit text)).moves
    (reply = .done ∧ s.Course ms ∧ s.after ms = s') ∧
    (∃ body, ms = .began text :: (body ++ [.ended]) ∧ Calls (s.owed text) body) ∧
    (∀ pre text' post, ms = pre ++ .began text' :: post →
      (s.after pre).signal.ids.Nodup ∧
        ∃ body rest, post = body ++ .ended :: rest ∧ Calls ((s.after pre).owed text') body) ∧
    ∀ depth', depth ≤ depth' → s.perform depth' (.emit text) = some (s', reply) := by
  have hrecorded := recorded_attempt depth s (.emit text)
  have hvalue : (s.attempt depth (.emit text)).value = some (s', reply) :=
    (value_attempt depth s (.emit text)).trans hends
  cases depth with
  | zero =>
    rw [perform, if_neg (hlive ▸ Bool.false_ne_true)] at hends
    cases hends
  | succ depth =>
    have hresult := value_attempt_emit hlive depth text
    have hmoves := moves_attempt_emit hlive depth text
    rw [hvalue] at hresult
    obtain ⟨served, hserved, hpair⟩ := Option.map_eq_some_iff.1 hresult.symm
    rw [hserved, Option.elim_some] at hmoves
    have hbody := (recorded_serveAll (recorded_attempt depth) text s).complete served hserved
    refine ⟨⟨(congrArg Prod.snd hpair).symm, hrecorded.course, after_attempt hends⟩,
      ⟨_, hmoves, hbody.calls⟩, fun pre text' post hsplit => ?_,
      fun depth' hle => perform_of_le hle hends⟩
    have hpre : s.Course pre := (course_append.1 (hsplit ▸ hrecorded.course)).1
    exact ⟨(huse.after hpre).ids_nodup, (hrecorded.complete _ hvalue).emission pre text' post hsplit⟩

/-- A listener that does nothing when it is called. -/
def silent : Nat → String → List SignalAction := fun _ _ => []

/-- A listener that, on its first call, disconnects another one, connects a new one and emits again. -/
def meddler : Nat → String → List SignalAction := fun n _ =>
  if n = 0 then [.disconnect "b", .connect "c" silent, .emit "y"] else []

/-- The moves that connect a `meddler` and the `silent` listener that it disconnects. -/
def meddling : List SignalMove := [.act (.connect "a" meddler), .act (.connect "b" silent)]

/-- The signal with a `meddler` and the `silent` listener. -/
def meddled : SignalSession := after {} meddling

/-- The listener disconnected meanwhile is still called, and the new one is not; but the nested emission
calls the new one. -/
theorem calls_of_emit_meddled :
    let ms := (meddled.attempt 2 (.emit "x")).moves
    (meddled.InUse ∧ meddled.dropped = false ∧
      meddled.perform 2 (.emit "x") = some (meddled.after ms, .done)) ∧
    (∃ body, ms = .began "x" :: (body ++ [.ended]) ∧
      Calls [(0, ⟨"a", meddler⟩, "x"), (1, ⟨"b", silent⟩, "x")] body) ∧
    ∃ body rest, ms.drop 7 = body ++ .ended :: rest ∧
      Calls [(0, ⟨"a", meddler⟩, "y"), (2, ⟨"c", silent⟩, "y")] body := by
  intro ms
  have huse : meddled.InUse := ⟨meddling, ⟨trivial, trivial, trivial⟩, rfl⟩
  have hends : meddled.perform 2 (.emit "x") = some (meddled.after ms, .done) := rfl
  obtain ⟨-, houter, hnested, -⟩ := calls_of_emit huse rfl hends
  exact ⟨⟨huse, rfl, hends⟩, houter, (hnested (ms.take 6) "y" (ms.drop 7) rfl).2⟩

end SignalSession

end Recalc
