import TripleStore.Record.Bytes
import TripleStore.Record.Error

/-!
# Records of one shape

A `Shape` fixes the number of key bytes and of value bytes. Records of that shape lie one behind
the other in a buffer: slot `i` takes the bytes from `i * recordLength` on, the key first. A shape
writes and reads only records of its own, and only in slots that lie wholly inside the buffer.
-/

namespace TripleStore

/-- A key, and a value if there is one. -/
structure Record where
  key : List UInt8
  value : Option (List UInt8)
deriving DecidableEq, Repr

/-- The lengths of a record's parts. A record without value bytes is all key. -/
structure Shape where
  keyLength : Nat
  valueLength : Nat
  key_pos : 0 < keyLength
deriving DecidableEq, Repr

namespace Record

/-- The bytes of a record, key first. -/
def bytes (r : Record) : List UInt8 := r.key ++ r.value.getD []

end Record

namespace Shape

def ofLengths (keyLength valueLength : Nat) : Except RecordError Shape :=
  if h : 0 < keyLength then .ok ⟨keyLength, valueLength, h⟩ else .error .zeroKeyLength

def hasValue (s : Shape) : Bool := 0 < s.valueLength

/-- The bytes of a slot. -/
def recordLength (s : Shape) : Nat := s.keyLength + s.valueLength

/-- The first byte of a slot and the first one behind it, if offsets reach so far. -/
def slotRange? (s : Shape) (slot : Nat) : Option (Nat × Nat) :=
  let start := slot * s.recordLength
  let stop := start + s.recordLength
  if stop < Bytes.addressSpace then some (start, stop) else none

/-- Whether the parts of a record have the lengths of the shape. -/
def check (s : Shape) (key : List UInt8) (value : Option (List UInt8)) : Except RecordError Unit :=
  if key.length ≠ s.keyLength then .error (.keyLength s.keyLength key.length)
  else
    match s.hasValue, value with
    | false, some _ => .error .unexpectedValue
    | false, none => .ok ()
    | true, none => .error (.missingValue s.valueLength)
    | true, some v =>
      if v.length ≠ s.valueLength then .error (.valueLength s.valueLength v.length) else .ok ()

def create (s : Shape) (key : List UInt8) (value : Option (List UInt8)) :
    Except RecordError Record :=
  (s.check key value).map fun _ => ⟨key, value⟩

/-- The record with the given key whose value, if the shape has one, is all zeros. -/
def createKeyOnly (s : Shape) (key : List UInt8) : Except RecordError Record :=
  s.create key (if s.hasValue then some (List.replicate s.valueLength 0) else none)

/-- The first byte of a slot that lies wholly inside a buffer of some length. -/
def slotStart (s : Shape) (len slot : Nat) : Except RecordError Nat :=
  match s.slotRange? slot with
  | some (start, stop) =>
    if stop ≤ len then .ok start else .error (.outOfBounds start s.recordLength len)
  | none => .error (.outOfBounds (Bytes.addressSpace - 1) s.recordLength len)

def write (s : Shape) (r : Record) (buf : Array UInt8) (slot : Nat) :
    Except RecordError (Array UInt8) := do
  s.check r.key r.value
  let start ← s.slotStart buf.size slot
  return Bytes.overwrite buf start r.bytes

def read (s : Shape) (buf : Array UInt8) (slot : Nat) : Except RecordError Record := do
  let start ← s.slotStart buf.size slot
  return {
    key := Bytes.slice buf start s.keyLength
    value := if s.hasValue then some (Bytes.slice buf (start + s.keyLength) s.valueLength)
      else none }

def key? (s : Shape) (buf : Array UInt8) (slot : Nat) : Option (List UInt8) :=
  match s.slotStart buf.size slot with
  | .ok start => some (Bytes.slice buf start s.keyLength)
  | .error _ => none

def text (s : Shape) : String :=
  "<RecordFactory k=" ++ toString s.keyLength ++ " v=" ++ toString s.valueLength ++ ">"

end Shape

end TripleStore
