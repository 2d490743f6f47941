import TripleStore.Value

/-!
# One side of a comparison

To compare two lists of triples up to a renaming of their blank nodes, each side is reduced to what
counts: terms are replaced by their values, and blank labels by numbers in order of first sight.
Triples of equal values stay separate entries. The triples that mention a blank node are kept apart
from the ground ones.
-/

namespace TripleStore.Isomorphism

/-- What a position counts for. -/
inductive Slot where
  | any
  | ground (key : ValueKey)
  | blank (number : Nat)
deriving DecidableEq

def Slot.blank? : Slot → Option Nat
  | .blank b => some b
  | _ => none

/-- The blank nodes that a triple mentions, as often as it does. -/
def blanksOf (t : Triple Slot) : List Nat := t.toList.filterMap Slot.blank?

def mentions (b : Nat) (t : Triple Slot) : Bool := (blanksOf t).contains b

def label? : Node → Option String
  | .term (.blank label) => some label
  | _ => none

/-- The blank labels of some triples, each once, in order of first sight. -/
def labels (ts : List Pattern) : List String :=
  (ts.flatMap fun t => t.toList.filterMap label?).eraseDups

/-- What a node counts for, given the numbering of the labels. -/
def slotOf (known : List String) : Node → Slot
  | .any => .any
  | .term (.blank label) => .blank (known.idxOf label)
  | .term t => .ground (ValueKey.of t)

/-- One side of a comparison. -/
structure Side where
  groundTriples : List (Triple Slot)
  /-- The triples that mention a blank node. -/
  blankTriples : List (Triple Slot)
  /-- The number of blank nodes. -/
  blanks : Nat
deriving DecidableEq

/-- What a list of triples counts for. -/
def Side.ofPatterns (ts : List Pattern) : Side :=
  let known := labels ts
  let slots := ts.map fun t => t.map (slotOf known)
  { groundTriples := slots.filter fun t => (blanksOf t).isEmpty
    blankTriples := slots.filter fun t => !(blanksOf t).isEmpty
    blanks := known.length }

end TripleStore.Isomorphism
