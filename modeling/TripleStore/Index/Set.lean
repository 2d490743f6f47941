import TripleStore.Error
import TripleStore.Index.Sorted

/-!
# Indexes kept in step

An `IndexSet` keeps the same triples in several orders, of which subject-predicate-object is always
one and the first. A pattern is looked up in the order whose leading columns it binds furthest.
Only triples of real ids are stored.
-/

namespace TripleStore

/-- The same triples in several orders. -/
structure IndexSet where
  /-- The index by subject, predicate and object, which tells what is stored. -/
  primary : TripleIndex
  others : List TripleIndex
deriving DecidableEq, Repr

namespace IndexSet

/-- The orders of a list that are new, each once. -/
def newOrders (known : List IndexOrder) : List IndexOrder → List IndexOrder
  | [] => []
  | o :: os => if known.contains o then newOrders known os else o :: newOrders (known ++ [o]) os

def empty (orders : List IndexOrder) : IndexSet :=
  ⟨.empty .spo, (newOrders [.spo] orders).map TripleIndex.empty⟩

/-- All indexes, the first one in front. -/
def indexes (s : IndexSet) : List TripleIndex := s.primary :: s.others

def orders (s : IndexSet) : List IndexOrder := s.indexes.map (·.order)

/-- Whether a triple has a real id in every position. -/
def checkStorable (t : IdTriple) : Except Error Unit :=
  match t.mark? with
  | some id => .error (.invalidTerm (.notStorable id))
  | none => .ok ()

/-- Puts a triple into every index and tells whether it was new in one. -/
def put (s : IndexSet) (t : IdTriple) : Bool × IndexSet :=
  let first := s.primary.insert t
  let rest := s.others.map fun x => x.insert t
  (first.1 || rest.any (·.1), ⟨first.2, rest.map (·.2)⟩)

/-- Takes a triple out of every index and tells whether it was in one. -/
def drop (s : IndexSet) (t : IdTriple) : Bool × IndexSet :=
  let first := s.primary.erase t
  let rest := s.others.map fun x => x.erase t
  (first.1 || rest.any (·.1), ⟨first.2, rest.map (·.2)⟩)

/-- Puts a triple of real ids into every index and tells whether it was new. -/
def insert (s : IndexSet) (t : IdTriple) : Except Error (Bool × IndexSet) :=
  (checkStorable t).map fun _ => s.put t

def remove (s : IndexSet) (t : IdTriple) : Except Error (Bool × IndexSet) :=
  (checkStorable t).map fun _ => s.drop t

def contains (s : IndexSet) (t : IdTriple) : Bool := s.primary.contains t

/-- The number of leading columns that a pattern binds in an index. -/
def reach (pattern : IdTriple) (x : TripleIndex) : Nat := (x.order.boundColumns pattern).length

/-- The first index of those that a pattern reaches furthest into. -/
def choose (s : IndexSet) (pattern : IdTriple) : TripleIndex :=
  s.others.foldl (fun best x => if reach pattern best < reach pattern x then x else best) s.primary

/-- The triples behind `after` that match a pattern, in the order chosen for it. A term that has no
id is in no triple. -/
def findAfter (s : IndexSet) (pattern : IdTriple) (after : Option IdTriple) : List IdTriple :=
  if pattern.toList.any NodeId.isMissing then [] else (s.choose pattern).scanAfter pattern after

def find (s : IndexSet) (pattern : IdTriple) : List IdTriple := s.findAfter pattern none

def containsMatch (s : IndexSet) (pattern : IdTriple) : Bool :=
  if pattern.toList.all NodeId.isReal then s.contains pattern else !(s.find pattern).isEmpty

/-- Takes out triples one by one. The first one that cannot be stored ends it. -/
def removeAll (s : IndexSet) : List IdTriple → Except Error Unit × IndexSet
  | [] => (.ok (), s)
  | t :: ts =>
    match s.remove t with
    | .ok (_, s') => s'.removeAll ts
    | .error e => (.error e, s)

def removeMatching (s : IndexSet) (pattern : IdTriple) : Except Error (List IdTriple) × IndexSet :=
  let doomed := s.find pattern
  let (result, s') := s.removeAll doomed
  (result.map fun _ => doomed, s')

def size (s : IndexSet) : Nat := s.primary.len

def isEmpty (s : IndexSet) : Bool := s.size == 0

def clear (s : IndexSet) : IndexSet := ⟨s.primary.clear, s.others.map TripleIndex.clear⟩

/-- Every other index holds the triples of the first one and no further keys. -/
def isConsistent (s : IndexSet) : Bool :=
  let reference := s.primary.scan IdTriple.any
  s.others.all fun x =>
    x.len == reference.length && (x.scan IdTriple.any).mergeSort IdTriple.rawLe == reference

end IndexSet

end TripleStore
