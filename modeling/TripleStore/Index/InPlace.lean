import TripleStore.Index.Set
import TripleStore.Record.InPlace

/-!
# Indexes changed in place

A triple is put into the indexes of a set one by one, and taken out of them one by one. When one of
them refuses a new triple, those before it give it up again. When one of them refuses to give a
triple up, those before it have done so.
-/

namespace TripleStore

namespace TripleIndex

/-- The key of a triple, written column by column. -/
def buildKey (x : TripleIndex) (t : IdTriple) : Except RecordError (List UInt8) :=
  (NodeId.writeAll (x.order.permute t).toList (Array.replicate (3 * NodeId.size) 0) 0).map
    Array.toList

def onRecords {α : Type} (call : InPlace RecordError Buffer α) : InPlace Error TripleIndex α :=
  call.onPart TripleIndex.records (fun x records => { x with records }) Error.shapeMismatch

def insertInPlace (t : IdTriple) : InPlace Error TripleIndex Bool := do
  let x ← get
  let key ← InPlace.require ((x.buildKey t).mapError Error.shapeMismatch)
  let r ← InPlace.require ((x.records.shape.create key none).mapError Error.shapeMismatch)
  onRecords (Buffer.insertInPlace r)

def removeInPlace (t : IdTriple) : InPlace Error TripleIndex Bool := do
  let x ← get
  let key ← InPlace.require ((x.buildKey t).mapError Error.shapeMismatch)
  return (← onRecords (Buffer.removeInPlace key)).isSome

end TripleIndex

namespace IndexSet

/-- The index set with other indexes in the place of its own. -/
def withIndexes (s : IndexSet) : List TripleIndex → IndexSet
  | [] => s
  | x :: xs => ⟨x, xs⟩

/-- Puts a triple into indexes one by one, behind those that have it by now, and tells whether it
was new in one. If an index refuses a triple that was new before, the others give it up. -/
def insertEach (insert : TripleIndex → Except (Halt Error) Bool × TripleIndex)
    (undo : TripleIndex → TripleIndex) (added : Bool) (done : List TripleIndex) :
    List TripleIndex → Except (Halt Error) Bool × List TripleIndex
  | [] => (.ok added, done)
  | x :: xs =>
    match insert x with
    | (.ok fresh, x') => insertEach insert undo (added || fresh) (done ++ [x']) xs
    | (.error .panic, x') => (.error .panic, done ++ x' :: xs)
    | (.error (.refused e), x') =>
      (.error (.refused e), (if added then done.map undo else done) ++ x' :: xs)

/-- Takes a triple out of indexes one by one and tells whether it was in one. -/
def removeEach (remove : TripleIndex → Except (Halt Error) Bool × TripleIndex) (removed : Bool) :
    List TripleIndex → Except (Halt Error) Bool × List TripleIndex
  | [] => (.ok removed, [])
  | x :: xs =>
    match remove x with
    | (.ok found, x') =>
      let (answer, xs') := removeEach remove (removed || found) xs
      (answer, x' :: xs')
    | (.error halt, x') => (.error halt, x' :: xs)

def onIndexes {α : Type} (call : List TripleIndex → Except (Halt Error) α × List TripleIndex) :
    InPlace Error IndexSet α := do
  let s ← get
  let (answer, xs) := call s.indexes
  set (s.withIndexes xs)
  ofExcept answer

/-- Puts a triple of real ids into every index and tells whether it was new. An index that gives it
up is not asked how that went. -/
def insertInPlace (t : IdTriple) : InPlace Error IndexSet Bool := do
  InPlace.require (checkStorable t)
  let undo (x : TripleIndex) := ((TripleIndex.removeInPlace t).on x).2
  onIndexes (insertEach (TripleIndex.insertInPlace t).on undo false [])

def removeInPlace (t : IdTriple) : InPlace Error IndexSet Bool := do
  InPlace.require (checkStorable t)
  onIndexes (removeEach (TripleIndex.removeInPlace t).on false)

/-- Takes out triples one by one. The first one that is refused ends it. -/
def removeAllInPlace : List IdTriple → InPlace Error IndexSet Unit
  | [] => return ()
  | t :: ts => do
    let _ ← removeInPlace t
    removeAllInPlace ts

def removeMatchingInPlace (pattern : IdTriple) : InPlace Error IndexSet (List IdTriple) := do
  let doomed := (← get).find pattern
  removeAllInPlace doomed
  return doomed

end IndexSet

end TripleStore
