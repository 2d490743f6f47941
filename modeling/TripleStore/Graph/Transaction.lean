import TripleStore.Index.Set

/-!
# Undo log

A mutation notes each change it made to the indexes; `rollback` takes a run of changes back, the
newest first. A `Transaction` belongs to the thread that began it and keeps the changes since.
-/

namespace TripleStore

structure Thread where
  number : Nat
deriving DecidableEq, Repr, Inhabited

inductive Change where
  /-- The triple was not stored before. -/
  | added (ids : IdTriple)
  /-- The triple was stored before. -/
  | removed (ids : IdTriple)
deriving DecidableEq, Repr

def Change.undo (s : IndexSet) : Change → Except Error (Bool × IndexSet)
  | .added ids => s.remove ids
  | .removed ids => s.insert ids

/-- Takes changes back one by one. The first one that cannot be taken back ends it. -/
def undoAll (s : IndexSet) : List Change → Except Error Unit × IndexSet
  | [] => (.ok (), s)
  | c :: cs =>
    match c.undo s with
    | .ok (_, s') => undoAll s' cs
    | .error e => (.error e, s)

/-- Takes changes back, the newest of them, which is the last, first. -/
def rollback (s : IndexSet) (changes : List Change) : Except Error Unit × IndexSet :=
  undoAll s changes.reverse

/-- The changes that a thread made since it began. -/
structure Transaction where
  owner : Thread
  /-- The oldest change first. -/
  undo : List Change
deriving DecidableEq, Repr

def Transaction.record (t : Transaction) (changes : List Change) : Transaction :=
  { t with undo := t.undo ++ changes }

end TripleStore
