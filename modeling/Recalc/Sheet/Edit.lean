import Recalc.Sheet.Links
import Recalc.Sheet.Update

/-!
# Structural edits

Adding, editing and removing groups. An edit parses its statement first, checks the names, and then
rewires the graph; only after that are equations created, changed or destroyed and announced. So a
statement that does not parse, a name that is taken, and a cycle leave the sheet as it was.
-/

namespace Recalc

/-- The equation of a new item. An item that reports a fault passes its status and message on. -/
def Equation.ofItem (item : ParseItem) (group : GroupId) : Equation :=
  let e := Equation.fresh item.name item.content item.kind group
  if item.isError then { e with status := item.status, message := item.message } else e

/-- The first name that occurs a second time. -/
def firstRepeated? : (seen : List String) → List String → Option String
  | _, [] => none
  | seen, name :: names =>
    if name ∈ seen then some name else firstRepeated? (name :: seen) names

namespace Sheet

/-- Parse a statement whose items have different names. -/
def parseStatement (host : Host) (statement : String) :
    Traced Event (Except SheetError (List ParseItem)) := do
  Traced.announce (.parse .statement statement)
  match host.parse .statement statement with
  | .error e => pure (.error (.parse e))
  | .ok items =>
    match firstRepeated? [] (items.map (·.name)) with
    | some name => pure (.error (.alreadyExists name))
    | none => pure (.ok items)

/-- The first of some items whose name is taken. -/
def firstTaken? (s : Sheet) (items : List ParseItem) : Option String :=
  (items.find? fun item => s.hasEquation item.name).map (·.name)

/-- Enter a new name into the index and mark its equation. -/
def claim (id : GroupId) (s : Sheet) (name : String) : Sheet :=
  { s with owners := s.owners.insert name id }.invalidate name

/-- Update a group that was just edited, if the options say so. -/
def autoUpdate (host : Host) (s : Sheet) (id : GroupId) : Traced Event Sheet :=
  if s.options.autoUpdate then do
    let (s, _) ← s.update host (.group id) uncancelled
    pure s
  else pure s

/-- Create the group of a statement whose items are in the graph. -/
def createGroup (s : Sheet) (statement : String) (items : List ParseItem) :
    Traced Event (Sheet × GroupId) := do
  let id := GroupId.serial s.created
  let group : Group := items.foldl (fun g item => g.put (Equation.ofItem item id))
    { id, statement, equations := ∅ }
  let s := items.foldl (fun s item => s.claim id item.name) s
  let s := { s with groups := s.groups.insert id group, created := s.created + 1 }
  group.members.forM fun e => (Announcement.equationAdded e).send
  (Announcement.groupAdded group).send
  pure (s, id)

/-- Add a group, without updating it. -/
def enterGroup (host : Host) (s : Sheet) (statement : String) :
    Traced Event (Sheet × Except SheetError GroupId) := do
  match ← parseStatement host statement with
  | .error e => pure (s, .error e)
  | .ok items =>
    match s.firstTaken? items with
    | some name => pure (s, .error (.alreadyExists name))
    | none =>
      let snapshot := LinkSnapshot.capture s.graph [] items
      match s.rewire [] items with
      | (s, .error e) => pure (s, .error (.cycle e))
      | (s, .ok _) => do
        let (s, id) ← s.createGroup statement items
        let s ← s.flush snapshot
        pure (s, .ok id)

/-- Add a group. -/
def addGroup (host : Host) (s : Sheet) (statement : String) :
    Traced Event (Sheet × Except SheetError GroupId) := do
  match ← s.enterGroup host statement with
  | (s, .error e) => pure (s, .error e)
  | (s, .ok id) => do
    let s ← s.autoUpdate host id
    pure (s, .ok id)

/-- Destroy an equation whose node is gone: what depends on it is marked, and its value goes. -/
def destroy (s : Sheet) (name : String) : Traced Event Sheet := do
  Traced.announce? ((s.equation? name).map fun e => .announce (.equationRemoving e))
  let s := (s.graph.edges.arriving name).foldl (fun s e => s.invalidate e.source) s
  let s :=
    match s.owners.get? name with
    | none => s
    | some id => { s with owners := s.owners.erase name }.modifyGroup id (·.remove name)
  (Announcement.equationRemoved name).send
  pure { s with store := (s.store.remove name).1 }

/-- How a statement changes a group. -/
structure GroupDiff where
  /-- The names that are not in the statement. -/
  removed : List String
  /-- The items of new names. -/
  added : List ParseItem
  /-- The items whose content or kind changed. -/
  updated : List ParseItem

/-- Compare a group with the items of its new statement. -/
def diff (g : Group) (items : List ParseItem) : GroupDiff where
  removed := g.names.filter fun name => items.all fun item => item.name ≠ name
  added := items.filter fun item => (g.equations.get? item.name).isNone
  updated := items.filter fun item =>
    (g.equations.get? item.name).any fun e => e.content ≠ item.content || e.kind ≠ item.kind

/-- Change an equation in place: it loses its value and is marked. -/
def revise (s : Sheet) (item : ParseItem) : Traced Event Sheet := do
  let s := { s with store := (s.store.remove item.name).1 }
  let s := s.modifyEquation item.name fun e =>
    { e with content := item.content, kind := item.kind }
  let s := s.invalidate item.name
  s.announceUpdate item.name (.of .content ∪ .of .kind)
  pure s

/-- Enter a new name of an existing group and announce its equation. -/
def introduce (id : GroupId) (s : Sheet) (item : ParseItem) : Traced Event Sheet := do
  let s := s.claim id item.name
  Traced.announce? ((s.equation? item.name).map fun e => .announce (.equationAdded e))
  pure s

/-- Give a group its new equations, the order of its new statement, and the statement. -/
def restate (s : Sheet) (id : GroupId) (statement : String) (items added : List ParseItem) :
    Sheet :=
  s.modifyGroup id fun g =>
    let g := added.foldl (fun g item => g.put (Equation.ofItem item id)) g
    { g.reorder (items.map (·.name)) with statement }

/-- Carry out the change of a group whose items are in the graph. -/
def applyDiff (s : Sheet) (id : GroupId) (statement : String) (items : List ParseItem)
    (d : GroupDiff) : Traced Event Sheet := do
  let s ← d.removed.foldlM destroy s
  let s ← d.updated.foldlM revise s
  let s := s.restate id statement items d.added
  let s ← d.added.foldlM (introduce id) s
  let flags : GroupFlags :=
    if d.removed.isEmpty && d.added.isEmpty then .of .statement
    else .of .statement ∪ .of .equations
  Traced.announce? ((s.group? id).map fun g => .announce (.groupUpdated g flags))
  pure s

/-- Give a group another statement, without updating it; the flag is false if it is the same
statement again. -/
def changeGroup (host : Host) (s : Sheet) (id : GroupId) (statement : String) :
    Traced Event (Sheet × Except SheetError Bool) :=
  match s.group? id with
  | none => pure (s, .error (.groupNotFound id))
  | some group =>
    if group.statement = statement then pure (s, .ok false)
    else do
      match ← parseStatement host statement with
      | .error e => pure (s, .error e)
      | .ok items =>
        let d := diff group items
        match s.firstTaken? d.added with
        | some name => pure (s, .error (.alreadyExists name))
        | none =>
          let detached := d.removed ++ d.updated.map (·.name)
          let attached := d.added ++ d.updated
          let snapshot := LinkSnapshot.capture s.graph detached attached
          match s.rewire detached attached with
          | (s, .error e) => pure (s, .error (.cycle e))
          | (s, .ok _) => do
            let s ← s.applyDiff id statement items d
            let s ← s.flush snapshot
            pure (s, .ok true)

/-- Give a group another statement. Equations that the statement does not change keep their values
and statuses; the same statement again changes nothing. -/
def editGroup (host : Host) (s : Sheet) (id : GroupId) (statement : String) :
    Traced Event (Sheet × Except SheetError Unit) := do
  match ← s.changeGroup host id statement with
  | (s, .error e) => pure (s, .error e)
  | (s, .ok changed) => do
    let s ← if changed then s.autoUpdate host id else pure s
    pure (s, .ok ())

/-- Remove a group with its equations. -/
def removeGroup (s : Sheet) (id : GroupId) : Traced Event (Sheet × Except SheetError Unit) :=
  match s.group? id with
  | none => pure (s, .error (.groupNotFound id))
  | some group =>
    let snapshot := LinkSnapshot.capture s.graph group.names []
    match s.rewire group.names [] with
    | (s, .error e) => pure (s, .error (.cycle e))
    | (s, .ok _) => do
      (Announcement.groupRemoving group).send
      let s ← group.names.foldlM destroy s
      let s ← { s with groups := s.groups.erase id }.flush snapshot
      pure (s, .ok ())

/-- Execute the startup script, if there is one. -/
def startUp (host : Host) (s : Sheet) : Traced Event Sheet :=
  match s.options.startupScript with
  | none => pure s
  | some script => do
    Traced.announce (.run .exec script)
    pure { s with store := (host.exec script s.store).2 }

/-- Create a sheet over a store. -/
def create (host : Host) (options : Options) (store : Store) : Traced Event Sheet :=
  startUp host { options, store }

/-- Announce that a group and its equations go. -/
def announceEnd (g : Group) : Traced Event Unit := do
  (Announcement.groupRemoving g).send
  g.members.forM fun e => do
    (Announcement.equationRemoving e).send
    (Announcement.equationRemoved e.name).send

/-- Drop all groups and values and execute the startup script again. -/
def reset (host : Host) (s : Sheet) : Traced Event Sheet := do
  s.groups.values.forM announceEnd
  startUp host { s with
    graph := s.graph.reset
    groups := ∅
    owners := ∅
    store := s.store.clear
    pending := ∅ }

end Sheet

end Recalc
