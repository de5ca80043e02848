import Recalc.Proofs.Host.Local

/-!
# Chains of zeros

A statement of this host is a chain of three equations, the first of which is zero of either sign. What
the last one makes of the second is left open. The host is local where every two values are told apart
(`local_host`), the two zeros included.
-/

namespace Recalc.ZeroChain

/-- Zero, with a negative sign. -/
def negativeZero : Binary64 := ⟨0x8000000000000000, by decide⟩

/-- The names that an equation reads: `b` reads `a`, and `c` reads `b`. -/
def reads (text : String × String × ItemKind) : List String :=
  if text.1 = "b" then ["a"] else if text.1 = "c" then ["b"] else []

/-- The equations of a statement: `a` is zero of the sign that the statement gives. -/
def items (statement : String) : List ParseItem :=
  [{ name := "a", content := if statement = "-" then "-" else "+" },
    { name := "b", content := "a", dependencies := ["a"] },
    { name := "c", content := "b", dependencies := ["b"] }]

/-- Give a name a value, or fail if there is none. -/
def assign (store : Store) (name : String) : Option Json → Outcome × Store
  | some v => (.success none, store.set name v)
  | none => (.failure .nameError "", store)

/-- The host: `b` copies `a`, and `c` is what `view` makes of `b`. -/
def host (view : Json → Json) : Host where
  parse _ statement := .ok (items statement)
  exec code store :=
    if code = "b = a" then assign store "b" (store.get? "a")
    else if code = "c = b" then assign store "c" ((store.get? "b").map view)
    else assign store "a" (some (.float (if code = "a = -" then negativeZero else .zero)))
  eval _ _ := .success none

variable {view : Json → Json} {e : Equation} {store store' : Store}

/-- Whatever `assign` executes is an assignment in the sense of `Equation.Assigns`. -/
theorem assigns_of_exec {value : Store → Option Json}
    (h : ∀ store, (host view).exec e.code store = assign store e.name (value store)) :
    e.Assigns (host view) value where
  of_some := by
    intro store v hv
    rw [h, hv]
    exact ⟨rfl, rfl⟩
  of_none := by
    intro store hnone
    rw [h, hnone]
    exact ⟨rfl, rfl⟩

/-- An equation assigns a value that is a matter of what it reads. -/
theorem exists_assigns (h : e.Reported (host view)) :
    ∃ value : Store → Option Json, e.Assigns (host view) value ∧
      ∀ store store', (∀ d ∈ reads e.text, store.get? d = store'.get? d) →
        value store = value store' := by
  obtain ⟨statement, parsed, hparse, i, hi, htext⟩ := h
  obtain rfl : items statement = parsed := Except.ok.inj hparse
  have hcode : ∀ name content, i = { name, content, dependencies := reads (name, content, .var) } →
      e.name = name ∧ e.code = name ++ " = " ++ content ∧ reads e.text = reads (name, content, .var) := by
    rintro name content rfl
    have hname : name = e.name := congrArg Prod.fst htext
    have hcontent : content = e.content := congrArg (fun t => t.2.1) htext
    have hkind : ItemKind.var = e.kind := congrArg (fun t => t.2.2) htext
    refine ⟨hname.symm, ?_, ?_⟩
    · rw [Equation.code, ← hname, ← hcontent, ← hkind]
    · rw [Equation.text, ← hname, ← hcontent, ← hkind]
  -- One case for each equation of the chain; only the code of the first is left open.
  simp only [items, List.mem_cons, List.not_mem_nil, or_false] at hi
  rcases hi with hi | hi | hi
  · obtain ⟨hname, hcode, -⟩ := hcode _ _ hi
    refine ⟨fun _ => some (.float (if e.code = "a = -" then negativeZero else .zero)),
      assigns_of_exec fun store => ?_, fun _ _ _ => rfl⟩
    have hb : e.code ≠ "b = a" := by
      rw [hcode]
      split_ifs <;> decide
    have hc : e.code ≠ "c = b" := by
      rw [hcode]
      split_ifs <;> decide
    simp only [host, if_neg hb, if_neg hc, hname]
  · obtain ⟨hname, hcode, hreads⟩ := hcode _ _ hi
    refine ⟨fun store => store.get? "a", assigns_of_exec fun store => ?_,
      fun store store' h => h "a" ?_⟩
    · rw [hname, hcode]
      rfl
    · rw [hreads]
      exact List.mem_singleton_self "a"
  · obtain ⟨hname, hcode, hreads⟩ := hcode _ _ hi
    refine ⟨fun store => (store.get? "b").map view, assigns_of_exec fun store => ?_,
      fun store store' h => congrArg (Option.map view) (h "b" ?_)⟩
    · rw [hname, hcode]
      rfl
    · rw [hreads]
      exact List.mem_singleton_self "b"

/-- Values told apart, the host is local. -/
theorem local_host (view : Json → Json) : (host view).LocalUpTo (· = ·) reads := by
  refine Host.localUpTo_of_assigns (fun _ => rfl) (fun statement parsed hparse i hi => ?_)
    fun e he => exists_assigns he
  obtain rfl : items statement = parsed := Except.ok.inj hparse
  simp only [items, List.mem_cons, List.not_mem_nil, or_false] at hi
  rcases hi with rfl | rfl | rfl <;> rfl

/-- The last equation is current only if its value and what it would make of the one before it are the
same. -/
theorem same_of_current {same : Option Json → Option Json → Prop} {x y : Json}
    (htext : e.text = ("c", "b", .var)) (hb : store.get? "b" = some x) (hc : store.get? "c" = some y)
    (h : e.CurrentUpTo same (host view) store) : same (some (view x)) (some y) := by
  have hname : e.name = "c" := congrArg Prod.fst htext
  have hcode : e.code = (Equation.fresh "c" "b" .var (.serial 0)).code :=
    Equation.code_eq_of_text htext
  have hexec : (host view).exec e.code store = (.success none, store.set "c" (view x)) := by
    rw [hcode]
    show assign store "c" ((store.get? "b").map view) = _
    rw [hb]
    rfl
  rcases h with ⟨-, v, w, hv, hw, hsame⟩ | ⟨hfailure, -⟩
  · rw [hexec, hname] at hv
    rw [hname, hc] at hw
    have hset : (store.values.insert "c" (view x)).get? "c" = some v := hv
    rw [OrderedMap.get?_insert, if_pos rfl] at hset
    obtain rfl := Option.some.inj hset
    obtain rfl := Option.some.inj hw
    exact hsame
  · rw [hexec] at hfailure
    cases hfailure

end Recalc.ZeroChain
