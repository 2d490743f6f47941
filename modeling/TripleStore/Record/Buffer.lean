import TripleStore.Record.Shape

/-!
# Sorted buffers of records

A `Buffer` holds records of one shape in ascending order of their keys, each key once, as one run
of bytes. A key is found by halving; a record is put in or taken out by moving the bytes behind it.
-/

namespace TripleStore

/-- The first place of `[lo, hi)` that is not below, when the places below come first. -/
def partitionPoint (below : Nat → Bool) (lo hi : Nat) : Nat :=
  if lo < hi then
    let mid := lo + (hi - lo) / 2
    if below mid then partitionPoint below (mid + 1) hi else partitionPoint below lo mid
  else lo
termination_by hi - lo

/-- Where a key is, or where it would be. -/
inductive KeyPlace where
  | found (slot : Nat)
  | absent (slot : Nat)
deriving DecidableEq, Repr

/-- Records of one shape in ascending order of their keys. -/
structure Buffer where
  shape : Shape
  bytes : Array UInt8
  len : Nat
deriving DecidableEq, Repr

namespace Buffer

def empty (shape : Shape) : Buffer := ⟨shape, #[], 0⟩

def isEmpty (b : Buffer) : Bool := b.len == 0

def slotKey (b : Buffer) (slot : Nat) : List UInt8 :=
  Bytes.slice b.bytes (slot * b.shape.recordLength) b.shape.keyLength

/-- The record in a slot, which is taken to be in use: it lies in memory, so that its offset needs
no check. -/
def record (b : Buffer) (slot : Nat) : Record where
  key := b.slotKey slot
  value :=
    if b.shape.hasValue then
      some (Bytes.slice b.bytes (slot * b.shape.recordLength + b.shape.keyLength)
        b.shape.valueLength)
    else none

def key? (b : Buffer) (slot : Nat) : Option (List UInt8) :=
  if slot < b.len then some (b.slotKey slot) else none

def get? (b : Buffer) (slot : Nat) : Option Record :=
  if slot < b.len then some (b.record slot) else none

def keys (b : Buffer) : List (List UInt8) := (List.range b.len).map b.slotKey

def toList (b : Buffer) : List Record := (List.range b.len).filterMap b.get?

/-- The first slot whose key is not less than some bytes. -/
def lowerBound (b : Buffer) (start : List UInt8) : Nat :=
  partitionPoint (fun slot => b.slotKey slot < start) 0 b.len

def find (b : Buffer) (key : List UInt8) : KeyPlace :=
  let slot := b.lowerBound key
  if slot < b.len ∧ b.slotKey slot = key then .found slot else .absent slot

def contains (b : Buffer) (key : List UInt8) : Bool :=
  match b.find key with
  | .found _ => true
  | .absent _ => false

/-- Puts in a record, in place of the one with the same key if there is one. Tells whether the key
is new. The record is taken to have the shape. -/
def put (b : Buffer) (r : Record) : Bool × Buffer :=
  let n := b.shape.recordLength
  match b.find r.key with
  | .found slot => (false, { b with bytes := Bytes.overwrite b.bytes (slot * n) r.bytes })
  | .absent slot =>
    (true, { b with
      bytes := b.bytes.extract 0 (slot * n) ++ r.bytes.toArray ++
        b.bytes.extract (slot * n) b.bytes.size
      len := b.len + 1 })

/-- Puts in a record that has the shape. Nothing changes for another one. -/
def insert (b : Buffer) (r : Record) : Except RecordError (Bool × Buffer) :=
  (b.shape.check r.key r.value).map fun _ => b.put r

def erase (b : Buffer) (key : List UInt8) : Option Record × Buffer :=
  let n := b.shape.recordLength
  match b.find key with
  | .absent _ => (none, b)
  | .found slot =>
    (some (b.record slot), { b with
      bytes := b.bytes.extract 0 (slot * n) ++ b.bytes.extract ((slot + 1) * n) b.bytes.size
      len := b.len - 1 })

/-- The keys of at most `count` slots from one on, up to the first key that does not start with
some bytes. -/
def scanFrom (b : Buffer) (start : List UInt8) : (count slot : Nat) → List (List UInt8)
  | 0, _ => []
  | count + 1, slot =>
    let key := b.slotKey slot
    if start.isPrefixOf key then key :: b.scanFrom start count (slot + 1) else []

/-- The keys that start with some bytes. -/
def scan (b : Buffer) (start : List UInt8) : List (List UInt8) :=
  let slot := b.lowerBound start
  b.scanFrom start (b.len - slot) slot

def clear (b : Buffer) : Buffer := empty b.shape

end Buffer

end TripleStore
