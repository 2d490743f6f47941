import TripleStore.Record.Buffer

/-!
# Changes made in place

A call that changes an object makes its moves one by one. When it halts between two of them, the
object stays as the moves before left it. `InPlace` is such a call. Writing into a slot and putting
in and taking out a record are given by their moves, with the checks where they are made; a move
outside of the bytes is a panic.
-/

namespace TripleStore

/-- Why a call halts before its end. -/
inductive Halt (ε : Type) where
  | refused (e : ε)
  /-- The bytes do not reach so far, or there is no memory for as many. -/
  | panic
deriving DecidableEq, Repr

def Halt.map {ε ε' : Type} (why : ε → ε') : Halt ε → Halt ε'
  | .refused e => .refused (why e)
  | .panic => .panic

/-- A call on an object that it changes in place. -/
abbrev InPlace (ε σ α : Type) := ExceptT (Halt ε) (StateM σ) α

namespace InPlace

variable {ε ε' σ τ α : Type}

/-- What a call answers on an object, and the object it leaves. -/
def on (call : InPlace ε σ α) (s : σ) : Except (Halt ε) α × σ := (call.run.run s).run

/-- A check, which changes nothing. -/
def require (answer : Except ε α) : InPlace ε σ α := ofExcept (answer.mapError Halt.refused)

def onPart (part : σ → τ) (withPart : σ → τ → σ) (why : ε → ε') (call : InPlace ε τ α) :
    InPlace ε' σ α := do
  let s ← get
  let (answer, t) := call.on (part s)
  set (withPart s t)
  ofExcept (answer.mapError (Halt.map why))

/-- The outcome of a call that changes nothing when it is refused. -/
def allOrNothing (s : σ) : Except ε (α × σ) → Except (Halt ε) α × σ
  | .ok (a, s') => (.ok a, s')
  | .error e => (.error (.refused e), s)

end InPlace

namespace Bytes

variable {ε : Type}

/-- The number of bytes that there is memory for at most. -/
def capacity : Nat := Nat.pow 2 63 - 1

/-- Copies bytes into the part of a buffer that has as many from an offset on. -/
def copyInto (offset count : Nat) (bs : List UInt8) : InPlace ε (Array UInt8) Unit := do
  let buf ← get
  if offset + count ≤ buf.size ∧ bs.length = count then set (overwrite buf offset bs)
  else throw .panic

/-- Copies the bytes of `[start, stop)`, as they are before the copy, to another offset. -/
def copyWithin (start stop dest : Nat) : InPlace ε (Array UInt8) Unit := do
  let buf ← get
  if start ≤ stop ∧ stop ≤ buf.size ∧ dest ≤ buf.size - (stop - start) then
    set (overwrite buf dest (slice buf start (stop - start)))
  else throw .panic

/-- Brings a buffer to a length, with zeros behind what was there. -/
def resize (len : Nat) : InPlace ε (Array UInt8) Unit := do
  let buf ← get
  if len ≤ capacity then set (buf.extract 0 len ++ Array.replicate (len - buf.size) 0)
  else throw .panic

def truncate (len : Nat) : InPlace ε (Array UInt8) Unit := modify fun buf => buf.extract 0 len

end Bytes

namespace Shape

/-- Writes a record into a slot, the key and then the value. -/
def writeInPlace (s : Shape) (r : Record) (slot : Nat) :
    InPlace RecordError (Array UInt8) Unit := do
  InPlace.require (s.check r.key r.value)
  let start ← InPlace.require (s.slotStart (← get).size slot)
  Bytes.copyInto start s.keyLength r.key
  match r.value with
  | some v => Bytes.copyInto (start + s.keyLength) s.valueLength v
  | none => return ()

/-- Writes a record into a slot of a run of `len` slots. Those from there on are moved up by one. -/
def openSlot (s : Shape) (r : Record) (len slot : Nat) :
    InPlace RecordError (Array UInt8) Unit := do
  let n := s.recordLength
  Bytes.resize ((len + 1) * n)
  Bytes.copyWithin (slot * n) (len * n) ((slot + 1) * n)
  s.writeInPlace r slot

end Shape

namespace Buffer

def onBytes {α : Type} (call : InPlace RecordError (Array UInt8) α) :
    InPlace RecordError Buffer α :=
  call.onPart Buffer.bytes (fun b bytes => { b with bytes }) id

/-- Puts in a record. One with a new key is checked before the buffer grows. -/
def insertInPlace (r : Record) : InPlace RecordError Buffer Bool := do
  let b ← get
  match b.find r.key with
  | .found slot =>
    onBytes (b.shape.writeInPlace r slot)
    return false
  | .absent slot =>
    let checked ← InPlace.require (b.shape.create r.key r.value)
    onBytes (b.shape.openSlot checked b.len slot)
    modify fun b => { b with len := b.len + 1 }
    return true

/-- Takes out the record with a key. The slots behind it are moved down by one. -/
def removeInPlace (key : List UInt8) : InPlace RecordError Buffer (Option Record) := do
  let b ← get
  let n := b.shape.recordLength
  match b.find key with
  | .absent _ => return none
  | .found slot =>
    let r ← InPlace.require (b.shape.read b.bytes slot)
    onBytes (Bytes.copyWithin ((slot + 1) * n) (b.len * n) (slot * n))
    modify fun b => { b with len := b.len - 1 }
    onBytes (Bytes.truncate ((b.len - 1) * n))
    return some r

end Buffer

end TripleStore
