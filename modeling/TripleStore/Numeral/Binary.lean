import TripleStore.Numeral.Decimal

/-!
# Binary floating-point numbers

Bit patterns of the interchange formats of 32 and 64 bits, computed in exact arithmetic on natural
numbers. A magnitude is rounded to the nearest representable one, a tie to the even neighbour; the
bits of a magnitude are the place of its significand in the sequence of representable magnitudes,
so a carry out of the significand raises the exponent by itself and a carry out of the greatest
finite number gives infinity.
-/

namespace TripleStore.Numeral

/-- A binary format: the digits of its significand, the places of its least magnitude
`2 ^ (-places)`, and the bits of its infinity and of its sign. -/
structure BinaryFormat where
  precision : Nat
  places : Nat
  infinity : Nat
  sign : Nat
deriving DecidableEq, Repr

namespace BinaryFormat

def single : BinaryFormat := ⟨24, 149, 0x7F800000, 0x80000000⟩

def double : BinaryFormat := ⟨53, 1074, 0x7FF0000000000000, 0x8000000000000000⟩

/-- The quotient rounded to the nearest integer, a tie to the even one. -/
def roundQuotient (n d : Nat) : Nat :=
  let q := n / d
  let r := n % d
  if 2 * r < d then q else if d < 2 * r then q + 1 else q + q % 2

/-- `n < d * 2 ^ e`. -/
def belowPower (n d : Nat) (e : Int) : Bool :=
  if 0 ≤ e then n < d <<< e.toNat else n <<< (-e).toNat < d

/-- The greatest `e` with `d * 2 ^ e ≤ n`, for positive numbers. -/
def binaryLog (n d : Nat) : Int :=
  let e : Int := (n.log2 : Int) - d.log2
  if belowPower n d e then e - 1 else e

/-- The bits of the magnitude nearest to `n / d`. -/
def round (f : BinaryFormat) (n d : Nat) : Nat :=
  if n = 0 then 0
  else
    let q := max (binaryLog n d - (f.precision - 1 : Nat)) (-(f.places : Int))
    let m := if 0 ≤ q then roundQuotient n (d <<< q.toNat)
      else roundQuotient (n <<< (-q).toNat) d
    min ((q + f.places).toNat <<< (f.precision - 1) + m) f.infinity

/-- The value of a finite magnitude as a quotient. -/
def magnitude (f : BinaryFormat) (bits : Nat) : Nat × Nat :=
  let unit := 1 <<< (f.precision - 1)
  let e := bits / unit
  let m := if e = 0 then bits else bits % unit + unit
  (m <<< (e - 1), 1 <<< f.places)

/-- No magnitude of a format with this many digits before the point is finite, and none with this
many zeros behind it is positive. -/
def decimalReach : Nat := 400

/-- The bits of the magnitude of 64 bits nearest to a numeral. -/
def ofScientific (s : Scientific) : Nat :=
  if s.mantissa = 0 then 0
  else if (decimalReach : Int) < s.exponent then double.infinity
  else if s.exponent < -((decimalReach + s.mantissa.log2 + 1 : Nat) : Int) then 0
  else if 0 ≤ s.exponent then double.round (s.mantissa * Nat.pow 10 s.exponent.toNat) 1
  else double.round s.mantissa (Nat.pow 10 (-s.exponent).toNat)

/-- The bits of the magnitude of 32 bits nearest to one of 64 bits. -/
def narrow (bits : Nat) : Nat :=
  if bits = double.infinity then single.infinity
  else
    let (n, d) := double.magnitude bits
    single.round n d

end BinaryFormat

/-- What the lexical form of a floating-point literal denotes: no number, or a sign and the bits of
a magnitude of 64 bits. -/
inductive Floating where
  | nan
  | number (negative : Bool) (magnitude : Nat)
deriving DecidableEq, Repr

namespace Floating

/-- Reads a numeral or one of the special forms, whose spelling admits one case only. -/
def read? (cs : List Char) : Option Floating :=
  if cs = "INF".toList || cs = "+INF".toList then some (.number false BinaryFormat.double.infinity)
  else if cs = "-INF".toList then some (.number true BinaryFormat.double.infinity)
  else if cs = "NaN".toList then some .nan
  else (scientific? cs).map fun s => .number s.negative (BinaryFormat.ofScientific s)

/-- A sign and a magnitude in the bits of a format. Both zeros have the bits zero. -/
def pack (f : BinaryFormat) (negative : Bool) (magnitude : Nat) : Nat :=
  if magnitude = 0 then 0 else if negative then f.sign + magnitude else magnitude

/-- The bits in 64 bits; one pattern stands for all that is no number. -/
def doubleBits : Floating → UInt64
  | .nan => 0x7FF8000000000000
  | .number negative magnitude => (pack .double negative magnitude).toUInt64

/-- The bits in 32 bits, rounded once more from 64. -/
def singleBits : Floating → UInt32
  | .nan => 0x7FC00000
  | .number negative magnitude =>
    (pack .single negative (BinaryFormat.narrow magnitude)).toUInt32

end Floating

end TripleStore.Numeral
