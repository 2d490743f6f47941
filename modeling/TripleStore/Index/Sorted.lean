import TripleStore.Index.Order
import TripleStore.Record.Buffer

/-!
# One sorted index

A `TripleIndex` keeps triples of ids in one order as 24-byte keys of a sorted buffer. A scan starts
at the lower bound of the bytes that a pattern fixes, ends where the keys no longer start with
them, and leaves out the keys between that do not match or decode to no ids.
-/

namespace TripleStore

/-- The shape of index keys: three ids and no value. -/
def Shape.indexKey : Shape := ⟨3 * NodeId.size, 0, by decide⟩

/-- Triples of ids in one order. -/
structure TripleIndex where
  order : IndexOrder
  records : Buffer
deriving DecidableEq, Repr

namespace TripleIndex

def empty (order : IndexOrder) : TripleIndex := ⟨order, .empty .indexKey⟩

def len (x : TripleIndex) : Nat := x.records.len

def isEmpty (x : TripleIndex) : Bool := x.records.isEmpty

/-- The bytes of ids, one behind the other. -/
def columnBytes (columns : List NodeId) : List UInt8 := columns.flatMap NodeId.toBytes

def key (x : TripleIndex) (t : IdTriple) : List UInt8 := columnBytes (x.order.permute t).toList

/-- The triple of a key, if its columns are ids. -/
def decode (x : TripleIndex) (key : List UInt8) : Option IdTriple := do
  let a ← (NodeId.ofBytes (key.take 8)).toOption
  let b ← (NodeId.ofBytes ((key.drop 8).take 8)).toOption
  let c ← (NodeId.ofBytes ((key.drop 16).take 8)).toOption
  return x.order.unpermute ⟨a, b, c⟩

def insert (x : TripleIndex) (t : IdTriple) : Bool × TripleIndex :=
  let (fresh, records) := x.records.put ⟨x.key t, none⟩
  (fresh, { x with records })

def erase (x : TripleIndex) (t : IdTriple) : Bool × TripleIndex :=
  let (record, records) := x.records.erase (x.key t)
  (record.isSome, { x with records })

def contains (x : TripleIndex) (t : IdTriple) : Bool := x.records.contains (x.key t)

/-- The first slot behind a triple, which need not be there. -/
def slotAfter (x : TripleIndex) (t : IdTriple) : Nat :=
  match x.records.find (x.key t) with
  | .found slot => slot + 1
  | .absent slot => slot

/-- The bytes that the keys of a pattern's matches start with. -/
def fixedBytes (x : TripleIndex) (pattern : IdTriple) : List UInt8 :=
  columnBytes (x.order.boundColumns pattern)

/-- The triples behind `after` that match a pattern, in the order of the index. -/
def scanAfter (x : TripleIndex) (pattern : IdTriple) (after : Option IdTriple) : List IdTriple :=
  let fixed := x.fixedBytes pattern
  let slot := max (x.records.lowerBound fixed) ((after.map x.slotAfter).getD 0)
  (((x.records.scanFrom fixed (x.len - slot) slot).filterMap x.decode).filter
    (IdTriple.isMatch pattern))

def scan (x : TripleIndex) (pattern : IdTriple) : List IdTriple := x.scanAfter pattern none

def clear (x : TripleIndex) : TripleIndex := { x with records := x.records.clear }

end TripleIndex

end TripleStore
