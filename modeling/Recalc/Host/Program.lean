import Recalc.Host.Basic

/-!
# Programs

A host whose interpreter looks code up in a table of programs, and whose parser gives a result laid
down in advance. A program clears, removes, sets and copies values, in this order, and has a fixed
outcome.
-/

namespace Recalc

/-- An entry of the table. -/
structure Program where
  /-- The code it belongs to. -/
  code : String
  /-- Whether it clears the store first. -/
  clear : Bool := false
  /-- The names it takes the values from. -/
  remove : List String := []
  /-- The values it gives. -/
  set : List (String × Json) := []
  /-- The names it gives the value of another name, if that has one. -/
  copy : List (String × String) := []
  /-- How it ends. -/
  outcome : Outcome

namespace Program

/-- What a program leaves of a store. -/
def effect (p : Program) (store : Store) : Store :=
  let store := if p.clear then store.clear else store
  let store := p.remove.foldl (fun s k => (s.remove k).1) store
  let store := p.set.foldl (fun s e => s.set e.1 e.2) store
  p.copy.foldl (fun s e => (s.get? e.2).elim s (s.set e.1)) store

/-- Run the program of a code, whatever it is run for. -/
def runIn (programs : OrderedMap String Program) (_ : RunMode) (code : String) (store : Store) :
    Outcome × Store :=
  match programs.get? code with
  | none => (.failure .nameError ("no program for `" ++ code ++ "`"), store)
  | some p => (p.outcome, p.effect store)

/-- The host of a table of programs, with a laid-down result of parsing. -/
def host (programs : OrderedMap String Program)
    (parsed : Except ParseError (List ParseItem)) : Host :=
  .ofRun (fun _ _ => parsed) (runIn programs)

/-- The table of a list of programs; of several for one code the last one counts. -/
def table (programs : List Program) : OrderedMap String Program :=
  OrderedMap.ofList (programs.map fun p => (p.code, p))

end Program

end Recalc
