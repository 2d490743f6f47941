import TripleStore.Numeral.Binary
import TripleStore.Term
import TripleStore.Text.Blank

/-!
# Values of terms

`ValueKey.of` maps a term to the value it denotes; two terms match by value exactly if their keys
are equal. IRIs and blank nodes are their own values. The thirteen integer datatypes share one
space of integers, into which decimals without a fraction fall too; booleans have two lexical forms
each; language tags are compared without regard to case. A literal that is ill-typed, or whose
datatype is not compared by value, equals only itself.
-/

namespace TripleStore

/-- The value that a term denotes. -/
inductive ValueKey where
  | iri (text : String)
  | blank (label : String)
  | integer (value : Int)
  /-- A number with a fraction, as a numeral without needless zeros. -/
  | decimal (text : String)
  | boolean (value : Bool)
  | float (bits : UInt32)
  | double (bits : UInt64)
  | string (text : String)
  | langString (lexical tag : String)
  /-- A literal that equals only itself. -/
  | typed (datatype lexical : String)
deriving DecidableEq

namespace ValueKey

open Vocabulary

/-- An integer within two bounds. -/
def ofInteger? (least greatest : Int) (v : Int) : Option ValueKey :=
  if least ≤ v ∧ v ≤ greatest then some (.integer v) else none

/-- A decimal number. Without a fraction it is an integer, provided that its magnitude, which has no
sign yet, is one of the integers represented. -/
def ofDecimal? (d : Numeral.Decimal) : Option ValueKey :=
  if d.fraction.isEmpty then
    let magnitude := if d.whole.isEmpty then 0 else Numeral.digitsValue d.whole
    if magnitude ≤ greatestInteger then some (.integer (Numeral.signed d.negative magnitude))
    else none
  else some (.decimal d.text)

/-- The value of a lexical form, already trimmed, in a space. -/
def read? (lexical : List Char) : ValueSpace → Option ValueKey
  | .integer least greatest => (Numeral.integer? lexical).bind (ofInteger? least greatest)
  | .decimal => (Numeral.decimal? lexical).bind ofDecimal?
  | .boolean =>
    if lexical = "true".toList || lexical = "1".toList then some (.boolean true)
    else if lexical = "false".toList || lexical = "0".toList then some (.boolean false)
    else none
  | .float => (Numeral.Floating.read? lexical).map fun v => .float v.singleBits
  | .double => (Numeral.Floating.read? lexical).map fun v => .double v.doubleBits

/-- The value of a literal of a datatype other than `xsd:string`. -/
def ofTyped (lexical datatype : String) : ValueKey :=
  ((valueSpace? datatype).bind (read? (Text.trim lexical.toList))).getD (.typed datatype lexical)

def ofLiteral : Literal → ValueKey
  | .simple lexical => .string lexical
  | .tagged lexical tag => .langString lexical (Text.lowerAscii tag)
  | .typed lexical datatype _ => ofTyped lexical datatype

def of : Term → ValueKey
  | .iri text => .iri text
  | .blank label => .blank label
  | .literal l => ofLiteral l

end ValueKey

end TripleStore
