/-!
# Decimal numerals

`integer?` reads an optional sign and a run of digits. `decimal?` reads a numeral with an optional
point and keeps its parts without needless zeros; `Decimal.text` writes them with one zero for a
whole part without digits. `scientific?` reads a numeral with an optional power of ten.
-/

namespace TripleStore.Numeral

def digitsValue (ds : List Char) : Nat := ds.foldl (fun n c => 10 * n + (c.toNat - '0'.toNat)) 0

/-- The sign in front of a numeral, minus being `true`, and the text behind it. -/
def splitSign : List Char → Bool × List Char
  | '-' :: cs => (true, cs)
  | '+' :: cs => (false, cs)
  | cs => (false, cs)

def signed (negative : Bool) (n : Nat) : Int := if negative then -(n : Int) else n

/-- The value of an optional sign and one digit or more. -/
def integer? (cs : List Char) : Option Int :=
  let (negative, ds) := splitSign cs
  if !ds.isEmpty && ds.all Char.isDigit then some (signed negative (digitsValue ds)) else none

/-- The sign of a decimal numeral, minus being `true`, and the digits on both sides of its point. -/
structure Decimal where
  negative : Bool
  whole : List Char
  fraction : List Char
deriving DecidableEq, Repr

def Decimal.text (d : Decimal) : String :=
  String.ofList ((if d.negative then ['-'] else []) ++
    (if d.whole.isEmpty then ['0'] else d.whole) ++ '.' :: d.fraction)

def trimZeros (ds : List Char) : List Char := ds.dropWhile (· == '0')

/-- The parts of a numeral, without the zeros before its whole part and behind its fraction: an
optional sign, then digits with at most one point among them or at either end. A point alone is no
numeral. -/
def decimal? (cs : List Char) : Option Decimal :=
  let (negative, body) := splitSign cs
  let whole := body.takeWhile (· != '.')
  let fraction := (body.dropWhile (· != '.')).drop 1
  let ds := whole ++ fraction
  if !ds.isEmpty && ds.all Char.isDigit then
    some ⟨negative, trimZeros whole, (trimZeros fraction.reverse).reverse⟩
  else none

/-- The number `± mantissa * 10 ^ exponent`. -/
structure Scientific where
  negative : Bool
  mantissa : Nat
  exponent : Int
deriving DecidableEq, Repr

/-- The power of ten behind a numeral: nothing, or an `e` of either case and an integer. -/
def exponent? : List Char → Option Int
  | [] => some 0
  | c :: cs => if c = 'e' || c = 'E' then integer? cs else none

/-- Reads an optional sign, digits with at most one point among them or at either end, and an
optional power of ten. -/
def scientific? (cs : List Char) : Option Scientific :=
  let (negative, body) := splitSign cs
  let whole := body.takeWhile Char.isDigit
  let (fraction, rest) :=
    match body.dropWhile Char.isDigit with
    | '.' :: r => (r.takeWhile Char.isDigit, r.dropWhile Char.isDigit)
    | r => ([], r)
  if whole.isEmpty && fraction.isEmpty then none
  else
    (exponent? rest).map fun e =>
      ⟨negative, digitsValue (whole ++ fraction), e - fraction.length⟩

end TripleStore.Numeral
