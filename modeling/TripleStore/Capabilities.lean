/-!
# Capabilities

What a graph allows. The flags are fixed when the graph is made.
-/

namespace TripleStore

/-- What a graph allows. -/
structure Capabilities where
  /-- The size told is the exact number of triples. -/
  sizeAccurate : Bool := true
  addAllowed : Bool := true
  /-- Every triple may be added, not only some. -/
  addAllowedChecked : Bool := true
  deleteAllowed : Bool := true
  /-- Every stored triple may be deleted, not only some. -/
  deleteAllowedChecked : Bool := true
  /-- Clearing leaves nothing. -/
  canBeEmpty : Bool := true
  /-- A cursor may remove what it found. -/
  iteratorRemoveAllowed : Bool := true
  /-- Literals match by value; otherwise only identical terms match. -/
  handlesLiteralTyping : Bool := true
deriving DecidableEq, Repr

namespace Capabilities

def readOnly : Capabilities :=
  { addAllowed := false
    addAllowedChecked := false
    deleteAllowed := false
    deleteAllowedChecked := false
    iteratorRemoveAllowed := false }

def allowsAdd (c : Capabilities) (every : Bool) : Bool :=
  if every then c.addAllowedChecked else c.addAllowed

def allowsDelete (c : Capabilities) (every : Bool) : Bool :=
  if every then c.deleteAllowedChecked else c.deleteAllowed

end Capabilities

end TripleStore
