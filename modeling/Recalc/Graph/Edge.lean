import Recalc.OrderedMap
import Recalc.OrderedSet

/-!
# Edges

An edge `⟨a, b⟩` declares that `a` depends on `b`. Edges are kept apart from nodes, so an edge may
dangle: it can be stored while one or both of its ends do not exist.

`EdgeStore` keeps the set of edges in the order of insertion, together with one index by source and
one by target, so that neither direction needs a scan of the whole set.
-/

namespace Recalc

/-- A dependency: the source reads the target. -/
structure Edge where
  /-- The end that depends. -/
  source : String
  /-- The end that is depended on. -/
  target : String
  deriving DecidableEq, Repr

namespace Edge

/-- An edge as text: its source, an arrow, its target. -/
def text (e : Edge) : String := e.source ++ " -> " ++ e.target

/-- Edges are ordered by source, then by target, each by code points. -/
def order (e f : Edge) : Ordering := (compare e.source f.source).then (compare e.target f.target)

end Edge

/-- For each key the names filed under it, oldest first. A key without names is not listed. -/
abbrev EdgeIndex := OrderedMap String (List String)

namespace EdgeIndex

/-- The names filed under a key. -/
def find (index : EdgeIndex) (key : String) : List String := (index.get? key).getD []

/-- File a name under a key. -/
def file (index : EdgeIndex) (key name : String) : EdgeIndex :=
  index.insert key (index.find key ++ [name])

/-- Take a name out from under a key, and the key with its last name. -/
def discard (index : EdgeIndex) (key name : String) : EdgeIndex :=
  match index.get? key with
  | none => index
  | some names =>
    let rest := names.filter (· ≠ name)
    if rest.isEmpty then index.erase key else index.insert key rest

end EdgeIndex

/-- A set of edges with its two indexes. -/
structure EdgeStore where
  /-- The edges, oldest first. -/
  edges : OrderedSet Edge
  /-- The targets of each source. -/
  bySource : EdgeIndex
  /-- The sources of each target. -/
  byTarget : EdgeIndex
  deriving DecidableEq

namespace EdgeStore

/-- The store without edges. -/
def empty : EdgeStore := ⟨∅, ∅, ∅⟩

instance : EmptyCollection EdgeStore := ⟨empty⟩

instance : Inhabited EdgeStore := ⟨empty⟩

/-- The edges, oldest first. -/
def toList (s : EdgeStore) : List Edge := s.edges.toList

/-- Number of edges, dangling ones included. -/
def size (s : EdgeStore) : Nat := s.edges.size

/-- Whether an edge is stored. -/
def contains (s : EdgeStore) (e : Edge) : Bool := s.edges.contains e

/-- Store an edge; the flag tells whether it is new. -/
def insert (s : EdgeStore) (e : Edge) : EdgeStore × Bool :=
  if s.contains e then (s, false)
  else
    ({ edges := s.edges.insert e
       bySource := s.bySource.file e.source e.target
       byTarget := s.byTarget.file e.target e.source }, true)

/-- Drop an edge; the flag tells whether it was stored. -/
def erase (s : EdgeStore) (e : Edge) : EdgeStore × Bool :=
  if s.contains e then
    ({ edges := s.edges.erase e
       bySource := s.bySource.discard e.source e.target
       byTarget := s.byTarget.discard e.target e.source }, true)
  else (s, false)

/-- The edges that leave a source: what it depends on. -/
def leaving (s : EdgeStore) (source : String) : List Edge :=
  (s.bySource.find source).map (⟨source, ·⟩)

/-- The edges that arrive at a target: what depends on it. -/
def arriving (s : EdgeStore) (target : String) : List Edge :=
  (s.byTarget.find target).map (⟨·, target⟩)

/-- Number of edges that leave a source, dangling or not. -/
def outDegree (s : EdgeStore) (source : String) : Nat := (s.bySource.find source).length

end EdgeStore

end Recalc
