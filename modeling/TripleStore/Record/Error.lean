import TripleStore.Text.Hex

/-!
# Errors of records and ids

What can be wrong with a record, a slot, or the bytes of an id. `RecordError.isShapeMismatch` tells
the errors that mean "the record does not have the shape" from the others.
-/

namespace TripleStore

inductive RecordError where
  /-- A shape needs one key byte at least. -/
  | zeroKeyLength
  | keyLength (expected got : Nat)
  | valueLength (expected got : Nat)
  /-- A value where the shape has none. -/
  | unexpectedValue
  /-- No value where the shape has one. -/
  | missingValue (expected : Nat)
  /-- The bytes asked for do not all lie in the buffer. -/
  | outOfBounds (offset need len : Nat)
  /-- The value of a real id overlaps those of the marks. -/
  | idOutOfRange (value : UInt64)
  /-- The bits are neither those of a real id nor those of a mark. -/
  | reservedId (raw : UInt64)
deriving DecidableEq, Repr

namespace RecordError

def isShapeMismatch : RecordError → Bool
  | .keyLength .. | .valueLength .. | .unexpectedValue | .missingValue _ => true
  | _ => false

def message : RecordError → String
  | .zeroKeyLength => "record key length must be at least 1"
  | .keyLength expected got =>
    "key length error: factory manages keys of length " ++ toString expected ++ ", not " ++
      toString got
  | .valueLength expected got =>
    "value length error: factory manages values of length " ++ toString expected ++ ", not " ++
      toString got
  | .unexpectedValue => "value error: factory manages records that are all key"
  | .missingValue expected =>
    "value error: factory requires a value of length " ++ toString expected
  | .outOfBounds offset need len =>
    toString need ++ " bytes at offset " ++ toString offset ++ " exceed buffer of " ++
      toString len ++ " bytes"
  | .idOutOfRange value => "node id " ++ toString value.toNat ++ " is out of range"
  | .reservedId raw =>
    "raw value 0x" ++ String.ofList (Text.hexDigits 1 raw.toNat) ++ " is not a node id"

end RecordError

end TripleStore
