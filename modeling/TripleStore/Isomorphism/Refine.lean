import TripleStore.Isomorphism.Side

/-!
# Colors of blank nodes

Blank nodes are told apart by colors: all start alike, and a round gives each node a new color made
of its old one and of the triples that mention it. Rounds go on until one of them tells no more
nodes apart. The `Digest` that makes colors may be any functions: equal colors need not mean equal
surroundings, only the converse is used.
-/

namespace TripleStore.Isomorphism

/-- What a position of a triple looks like from one of its blank nodes. -/
inductive Mark where
  | any
  | ground (key : ValueKey)
  /-- The node itself. -/
  | self
  /-- Another blank node, by its color. -/
  | other (color : Nat)
deriving DecidableEq

/-- The functions that make colors. -/
structure Digest where
  /-- The color of every node at first. -/
  start : Nat
  /-- The signature of a triple as one of its nodes sees it. -/
  ofTriple : Triple Mark → Nat
  /-- The next color of a node, from its color and the signatures around it in ascending order. -/
  ofNode : Nat → List Nat → Nat

def colorOf (colors : List Nat) (b : Nat) : Nat := colors.getD b 0

def markOf (colors : List Nat) (me : Nat) : Slot → Mark
  | .any => .any
  | .ground key => .ground key
  | .blank b => if b = me then .self else .other (colorOf colors b)

def distinct (colors : List Nat) : Nat := colors.eraseDups.length

/-- The colors of some nodes in ascending order. -/
def histogram (colors : List Nat) (members : List Nat) : List Nat :=
  (members.map (colorOf colors)).mergeSort

namespace Side

/-- The signatures of the triples that mention a node, in ascending order. -/
def signatures (side : Side) (digest : Digest) (colors : List Nat) (b : Nat) : List Nat :=
  ((side.blankTriples.filter (mentions b)).map fun t =>
    digest.ofTriple (t.map (markOf colors b))).mergeSort

def round (side : Side) (digest : Digest) (colors : List Nat) : List Nat :=
  (List.range side.blanks).map fun b =>
    digest.ofNode (colorOf colors b) (side.signatures digest colors b)

/-- The colors from some on, of at most `rounds` more rounds. A round that tells no more nodes
apart is the last one. -/
def refineFrom (side : Side) (digest : Digest) : (rounds : Nat) → List Nat → List (List Nat)
  | 0, colors => [colors]
  | rounds + 1, colors =>
    let next := side.round digest colors
    if distinct next = distinct colors then [colors, next]
    else colors :: side.refineFrom digest rounds next

/-- The colors at first and after each of at most `rounds` rounds. -/
def refine (side : Side) (digest : Digest) (rounds : Nat) : List (List Nat) :=
  side.refineFrom digest rounds (List.replicate side.blanks digest.start)

end Side

end TripleStore.Isomorphism
