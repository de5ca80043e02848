/-!
# Traced values

A computation of the library never performs an effect: what it announces is part of its result.
A `Traced` value carries, beside the value, the events announced while it was computed, oldest
first, and the monad instance concatenates them in the order of the steps.
-/

namespace Recalc

/-- A value with the events announced while it was computed, oldest first. -/
structure Traced (ε α : Type) where
  /-- The value computed. -/
  value : α
  /-- The events, oldest first. -/
  events : List ε

namespace Traced

variable {ε α β : Type}

instance : Monad (Traced ε) where
  pure a := ⟨a, []⟩
  bind t f :=
    let u := f t.value
    ⟨u.value, t.events ++ u.events⟩

/-- Announce one event. -/
def announce (e : ε) : Traced ε Unit := ⟨(), [e]⟩

/-- Announce an event if there is one. -/
def announce? (e : Option ε) : Traced ε Unit := ⟨(), e.toList⟩

/-- Computations with the same value and the same events are the same. -/
@[ext] theorem ext {t u : Traced ε α} (hv : t.value = u.value) (he : t.events = u.events) :
    t = u := by
  cases t; cases u; cases hv; cases he; rfl

@[simp] theorem value_pure (a : α) : (pure a : Traced ε α).value = a := rfl

@[simp] theorem events_pure (a : α) : (pure a : Traced ε α).events = [] := rfl

/-- The value of a sequence is that of its second part, started from the value of the first. -/
@[simp] theorem value_bind (t : Traced ε α) (f : α → Traced ε β) :
    (t >>= f).value = (f t.value).value := rfl

/-- The events of a sequence are those of its parts, one after the other. -/
@[simp] theorem events_bind (t : Traced ε α) (f : α → Traced ε β) :
    (t >>= f).events = t.events ++ (f t.value).events := rfl

/-- Mapping a function over a computation maps its value. -/
@[simp] theorem value_map (f : α → β) (t : Traced ε α) : (f <$> t).value = f t.value := rfl

/-- Mapping a function over a computation leaves its events. -/
@[simp] theorem events_map (f : α → β) (t : Traced ε α) : (f <$> t).events = t.events := by
  simp [Functor.map]

@[simp] theorem value_announce (e : ε) : (announce e).value = () := rfl

@[simp] theorem events_announce (e : ε) : (announce e).events = [e] := rfl

/-- `announce?` announces the event, if there is one. -/
@[simp] theorem events_announce? (e : Option ε) : (announce? e).events = e.toList := rfl

instance : LawfulMonad (Traced ε) :=
  LawfulMonad.mk' _ (fun t => by ext <;> simp) (fun a f => by ext <;> simp)
    (fun t f g => by ext <;> simp)

/-- What follows a computation is followed from its value only. -/
theorem bind_congr_value {t : Traced ε α} {f k : α → Traced ε β} (h : f t.value = k t.value) :
    (t >>= f) = t >>= k :=
  ext (congrArg (·.value) h) (congrArg (t.events ++ ·.events) h)

/-- Changing only the second part of a value makes no difference to the first. -/
theorem map_fst_bind_pure {γ : Type} (t : Traced ε (α × β)) (f : β → γ) :
    Prod.fst <$> (t >>= fun r => pure (r.1, f r.2)) = Prod.fst <$> t :=
  ext rfl (by simp)

/-- Going through a list announces what is announced for each element. -/
theorem events_forM (f : α → Traced ε Unit) (as : List α) :
    (as.forM f).events = as.flatMap fun a => (f a).events := by
  induction as with
  | nil => rfl
  | cons a as ih =>
    rw [List.flatMap_cons, ← ih]
    rfl

/-- The value of a traced fold is the fold of the values. -/
theorem value_foldlM (f : β → α → Traced ε β) (b : β) (as : List α) :
    (as.foldlM f b).value = as.foldl (fun b a => (f b a).value) b := by
  induction as generalizing b with
  | nil => rfl
  | cons a as ih => simp [List.foldlM_cons, ih]

/-! ## Events of a kind -/

/-- Every event announced is of a kind. -/
def Every (P : ε → Prop) (t : Traced ε α) : Prop := ∀ e ∈ t.events, P e

namespace Every

variable {P Q : ε → Prop}

/-- A pure computation has no events to be looked at. -/
theorem pure (a : α) : (Pure.pure a : Traced ε α).Every P := fun _ h => nomatch h

/-- An event that is announced alone has the property if it does. -/
theorem announce {e : ε} (h : P e) : (Traced.announce e).Every P := fun _ he =>
  List.mem_singleton.1 he ▸ h

/-- What every event has, it has in any weaker sense. -/
theorem mono {t : Traced ε α} (h : t.Every P) (hPQ : ∀ e, P e → Q e) : t.Every Q :=
  fun e he => hPQ e (h e he)

/-- Every event of a sequence has what those of its parts have. -/
theorem bind {t : Traced ε α} {f : α → Traced ε β} (h : t.Every P) (hf : (f t.value).Every P) :
    (t >>= f).Every P := fun e he => (List.mem_append.1 he).elim (h e) (hf e)

/-- Mapping a function over a computation makes no difference to its events. -/
theorem map {t : Traced ε α} (f : α → β) (h : t.Every P) : (f <$> t).Every P := by
  intro e he
  rw [events_map] at he
  exact h e he

/-- `announce?` needs the property only of an event that is there. -/
theorem announce? {e : Option ε} (h : ∀ a, e = some a → P a) : (Traced.announce? e).Every P :=
  fun a ha => h a (Option.mem_toList.1 ha)

/-- What the events of each step have, the events of a fold have. -/
theorem foldlM {f : β → α → Traced ε β} {as : List α} (h : ∀ b a, (f b a).Every P) {b : β} :
    (as.foldlM f b).Every P := by
  induction as generalizing b with
  | nil => exact pure b
  | cons a as ih =>
    rw [List.foldlM_cons]
    exact (h b a).bind ih

/-- What the events of each visit have, the events of a visit to all elements have. -/
theorem forM {f : α → Traced ε Unit} {as : List α} (h : ∀ a ∈ as, (f a).Every P) :
    (as.forM f).Every P := by
  intro e he
  rw [events_forM] at he
  obtain ⟨a, ha, he⟩ := List.mem_flatMap.1 he
  exact h a ha e he

end Every

end Traced

end Recalc
