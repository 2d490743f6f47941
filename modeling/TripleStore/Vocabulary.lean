/-!
# Vocabulary

The namespaces that compact form abbreviates and the datatypes whose literals are compared by
value.
-/

namespace TripleStore.Vocabulary

def xsd : String := "http://www.w3.org/2001/XMLSchema#"

def rdf : String := "http://www.w3.org/1999/02/22-rdf-syntax-ns#"

def rdfs : String := "http://www.w3.org/2000/01/rdf-schema#"

def owl : String := "http://www.w3.org/2002/07/owl#"

/-- The namespace of words that name nothing else. -/
def eh : String := "eh:/"

/-- The abbreviations of compact form with the namespaces they stand for. -/
def namespaces : List (String × String) :=
  [("xsd", xsd), ("rdf", rdf), ("rdfs", rdfs), ("owl", owl), ("eh", eh)]

def namespace? (label : String) : Option String := namespaces.lookup label

/-- The datatype of simple literals. -/
def xsdString : String := "http://www.w3.org/2001/XMLSchema#string"

/-- The datatype of tagged literals. -/
def rdfLangString : String := "http://www.w3.org/1999/02/22-rdf-syntax-ns#langString"

/-- The datatype of a run of digits. -/
def xsdInteger : String := "http://www.w3.org/2001/XMLSchema#integer"

/-- A space of values that literals of one or several datatypes share. -/
inductive ValueSpace where
  /-- The integers between two bounds, both included. -/
  | integer (least greatest : Int)
  /-- The numbers with finitely many decimal places. -/
  | decimal
  | boolean
  /-- The binary floating-point numbers of 32 bits. -/
  | float
  /-- The binary floating-point numbers of 64 bits. -/
  | double
deriving DecidableEq, Repr

def leastInteger : Int := -Nat.pow 2 127

def greatestInteger : Int := Nat.pow 2 127 - 1

/-- The thirteen integer datatypes with their bounds, by local name. They share one value space,
of which 128 bits are represented. -/
def integerTypes : List (String × Int × Int) :=
  [("integer", leastInteger, greatestInteger),
   ("long", -Nat.pow 2 63, Nat.pow 2 63 - 1),
   ("int", -Nat.pow 2 31, Nat.pow 2 31 - 1),
   ("short", -Nat.pow 2 15, Nat.pow 2 15 - 1),
   ("byte", -Nat.pow 2 7, Nat.pow 2 7 - 1),
   ("nonNegativeInteger", 0, greatestInteger),
   ("positiveInteger", 1, greatestInteger),
   ("nonPositiveInteger", leastInteger, 0),
   ("negativeInteger", leastInteger, -1),
   ("unsignedLong", 0, Nat.pow 2 64 - 1),
   ("unsignedInt", 0, Nat.pow 2 32 - 1),
   ("unsignedShort", 0, Nat.pow 2 16 - 1),
   ("unsignedByte", 0, Nat.pow 2 8 - 1)]

/-- The datatypes compared by value, by full IRI. -/
def valueSpaces : List (String × ValueSpace) :=
  (integerTypes.map fun (name, least, greatest) => (xsd ++ name, .integer least greatest)) ++
    [(xsd ++ "decimal", .decimal), (xsd ++ "boolean", .boolean), (xsd ++ "float", .float),
     (xsd ++ "double", .double)]

/-- The value space of a datatype; none for the datatypes whose literals equal only themselves. -/
def valueSpace? (datatype : String) : Option ValueSpace := valueSpaces.lookup datatype

end TripleStore.Vocabulary
