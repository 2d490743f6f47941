import TripleStore.Index.Order
import TripleStore.NodeTable.Tables

/-!
# Node tables

A node table gives every term an id on first sight and never another one. `NodeTable` is what graphs
need of such a table; nothing is assumed of how it answers. `MemoryTable` keeps three tables in
step, in which the id of a term is its place in the order of first sight. `ScreenedTable` is a
memory table of which some ids do not resolve.
-/

namespace TripleStore

/-- What graphs need of a node table. -/
class NodeTable (τ : Type) where
  /-- The id of a term, a new one on first sight. -/
  lookupOrCreate : τ → Term → Except Error NodeId × τ
  /-- The id of a term, or `missing`. -/
  lookup : τ → Term → NodeId
  resolve : τ → NodeId → Option Term
  /-- The ids of all terms that have the value of a term, in ascending order. -/
  equivalents : τ → Term → List NodeId
  /-- The number of terms. -/
  size : τ → Nat

namespace NodeTable

variable {τ : Type} [NodeTable τ]

/-- The id of a node, which must be a term. -/
def encode (nodes : τ) : Node → Except Error NodeId × τ
  | .any => (.error (.invalidTerm .wildcard), nodes)
  | .term t => lookupOrCreate nodes t

/-- The term of an id, which must have one. -/
def decode (nodes : τ) (id : NodeId) : Except Error Term :=
  match resolve nodes id with
  | some t => .ok t
  | none => .error (.notFound id)

/-- The ids of a triple's nodes, subject first. The first node without an id ends it. -/
def encodeTriple (nodes : τ) (p : Pattern) : Except Error IdTriple × τ :=
  match encode nodes p.subject with
  | (.error e, nodes) => (.error e, nodes)
  | (.ok s, nodes) =>
    match encode nodes p.predicate with
    | (.error e, nodes) => (.error e, nodes)
    | (.ok p', nodes) =>
      match encode nodes p.object with
      | (.error e, nodes) => (.error e, nodes)
      | (.ok o, nodes) => (.ok ⟨s, p', o⟩, nodes)

/-- The terms of a triple's ids. -/
def decodeTriple (nodes : τ) (t : IdTriple) : Except Error Statement := do
  let s ← decode nodes t.subject
  let p ← decode nodes t.predicate
  let o ← decode nodes t.object
  return ⟨s, p, o⟩

end NodeTable

/-- A node table over three tables in step. -/
structure MemoryTable where
  tables : Tables
  sound : tables.Sound
deriving DecidableEq

namespace MemoryTable

def empty : MemoryTable := ⟨.empty, Tables.sound_empty⟩

def terms (m : MemoryTable) : List Term := m.tables.vector.toList

/-- The id of a term, or `missing`. -/
def lookup (m : MemoryTable) (t : Term) : NodeId := (m.tables.ids.lookup t).getD .missing

def lookupOrCreate (m : MemoryTable) (t : Term) : Except Error NodeId × MemoryTable :=
  let answer := m.tables.lookupOrCreate t
  (answer.1, ⟨answer.2, m.sound.lookupOrCreate t⟩)

def resolve (m : MemoryTable) (id : NodeId) : Option Term := m.tables.resolve id

/-- The ids of all terms that have the value of a term, in ascending order. -/
def equivalents (m : MemoryTable) (t : Term) : List NodeId := m.tables.under (ValueKey.of t)

instance : NodeTable MemoryTable where
  lookupOrCreate := lookupOrCreate
  lookup := lookup
  resolve := resolve
  equivalents := equivalents
  size m := m.tables.vector.size

end MemoryTable

/-- A memory table of which some ids do not resolve. -/
structure ScreenedTable where
  table : MemoryTable
  hidden : List UInt64
deriving DecidableEq

namespace ScreenedTable

def empty : ScreenedTable := ⟨.empty, []⟩

def resolve (s : ScreenedTable) (id : NodeId) : Option Term :=
  match id.value? with
  | some v => if s.hidden.contains v then none else s.table.resolve id
  | none => none

instance : NodeTable ScreenedTable where
  lookupOrCreate s t :=
    let (id, table) := s.table.lookupOrCreate t
    (id, { s with table })
  lookup s t := s.table.lookup t
  resolve := resolve
  equivalents s t := s.table.equivalents t
  size s := NodeTable.size s.table

end ScreenedTable

end TripleStore
