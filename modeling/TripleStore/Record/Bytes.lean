/-!
# Bytes

Numbers as big-endian bytes, so that the order of the bytes is the order of the numbers, and
patches of a byte buffer.
-/

namespace TripleStore.Bytes

/-- The number of different offsets; a greater one cannot be told from a smaller one. -/
def addressSpace : Nat := Nat.pow 2 64

/-- The last `width` digits of a number in base 256, the greatest first. -/
def ofNat : (width n : Nat) → List UInt8
  | 0, _ => []
  | width + 1, n => UInt8.ofNat (n / Nat.pow 256 width) :: ofNat width n

/-- The number that bytes stand for, the greatest digit first. -/
def toNat (bs : List UInt8) : Nat := bs.foldl (fun n b => 256 * n + b.toNat) 0

/-- The bytes of a buffer from an offset on. -/
def slice (buf : Array UInt8) (offset count : Nat) : List UInt8 :=
  (buf.extract offset (offset + count)).toList

/-- A buffer with the bytes from an offset on replaced. -/
def overwrite (buf : Array UInt8) (offset : Nat) (patch : List UInt8) : Array UInt8 :=
  buf.extract 0 offset ++ patch.toArray ++ buf.extract (offset + patch.length) buf.size

@[simp] theorem length_ofNat (width n : Nat) : (ofNat width n).length = width := by
  induction width with
  | zero => rfl
  | succ width ih => simp [ofNat, ih]

end TripleStore.Bytes
