import TripleStore.Record.Bytes
import TripleStore.Record.Error

/-!
# Node ids

A term is stored under a number. Two marks stand beside the numbers: `missing` for a term that has
none, and `any` for the wildcard. On the wire an id takes eight bytes, big-endian; the marks are
the numbers -8 and -9 in two's complement, so they collide with no number below `2 ^ 63`.
-/

namespace TripleStore

/-- The id of a term, or one of the two marks. -/
inductive NodeId where
  | real (value : UInt64)
  /-- The term has no id. -/
  | missing
  /-- Any id matches. -/
  | any
deriving DecidableEq, Repr

namespace NodeId

/-- The bytes that an id takes. -/
def size : Nat := 8

def maxValue : UInt64 := 0x7FFFFFFFFFFFFFFF

/-- The bits of `missing`, -8. -/
def rawMissing : UInt64 := 0xFFFFFFFFFFFFFFF8

/-- The bits of `any`, -9. -/
def rawAny : UInt64 := 0xFFFFFFFFFFFFFFF7

def ofValue (value : UInt64) : Except RecordError NodeId :=
  if maxValue < value then .error (.idOutOfRange value) else .ok (.real value)

def isReal : NodeId → Bool
  | .real _ => true
  | _ => false

def isAny : NodeId → Bool
  | .any => true
  | _ => false

def isMissing : NodeId → Bool
  | .missing => true
  | _ => false

def value? : NodeId → Option UInt64
  | .real v => some v
  | _ => none

def toRaw : NodeId → UInt64
  | .real v => v
  | .missing => rawMissing
  | .any => rawAny

def ofRaw (raw : UInt64) : Except RecordError NodeId :=
  if raw = rawMissing then .ok .missing
  else if raw = rawAny then .ok .any
  else if raw ≤ maxValue then .ok (.real raw)
  else .error (.reservedId raw)

def toBytes (id : NodeId) : List UInt8 := Bytes.ofNat size id.toRaw.toNat

def ofBytes (bs : List UInt8) : Except RecordError NodeId := ofRaw (Bytes.toNat bs).toUInt64

def write (id : NodeId) (buf : Array UInt8) (offset : Nat) : Except RecordError (Array UInt8) :=
  if offset + size ≤ buf.size then .ok (Bytes.overwrite buf offset id.toBytes)
  else .error (.outOfBounds offset size buf.size)

/-- Writes ids one behind the other, the first one at an offset of a buffer. -/
def writeAll : List NodeId → Array UInt8 → (offset : Nat) → Except RecordError (Array UInt8)
  | [], buf, _ => .ok buf
  | id :: ids, buf, offset => do
    let buf ← id.write buf offset
    writeAll ids buf (offset + size)

def read (buf : Array UInt8) (offset : Nat) : Except RecordError NodeId :=
  if offset + size ≤ buf.size then ofBytes (Bytes.slice buf offset size)
  else .error (.outOfBounds offset size buf.size)

def text : NodeId → String
  | .real v => "[" ++ toString v.toNat ++ "]"
  | .missing => "[DoesNotExist]"
  | .any => "[Any]"

@[simp] theorem length_toBytes (id : NodeId) : id.toBytes.length = size := by
  simp [toBytes]

end NodeId

end TripleStore
