import TripleStore.Isomorphism.Side

/-!
# Components

Blank nodes that a triple mentions together belong to one component, and so does the triple. A
component has no blank node in common with another one, so components can be matched one by one.
-/

namespace TripleStore.Isomorphism

/-- Blank nodes that hang together, with the triples that mention them. -/
structure Component where
  blanks : List Nat
  triples : List (Triple Slot)
deriving DecidableEq

/-- A way to keep sets of numbers of which no two have a number in common. Any two of the sets can
be united. -/
structure UnionFind where
  Sets : Type
  /-- The numbers below a bound, each in a set of its own. -/
  new : Nat → Sets
  /-- Unites the sets of two numbers. -/
  union : Sets → Nat → Nat → Sets
  /-- The representatives of the numbers in order, one for each set. -/
  labels : Sets → List Nat

def representative (reps : List Nat) (b : Nat) : Nat := reps.getD b b

/-- Gives the set of one number the representative of another one's. -/
def relabel (reps : List Nat) (a b : Nat) : List Nat :=
  let source := representative reps b
  let target := representative reps a
  reps.map fun r => if r = source then target else r

/-- Sets kept by their representatives alone. -/
def UnionFind.relabeling : UnionFind := ⟨List Nat, List.range, relabel, id⟩

/-- Unites the sets of all nodes that a triple mentions. -/
def uniteTriple (unionFind : UnionFind) (sets : unionFind.Sets) (t : Triple Slot) :
    unionFind.Sets :=
  match blanksOf t with
  | [] => sets
  | first :: rest => rest.foldl (fun sets b => unionFind.union sets first b) sets

namespace Side

/-- A representative for every node, the same for nodes that hang together. -/
def representatives (side : Side) (unionFind : UnionFind) : List Nat :=
  unionFind.labels (side.blankTriples.foldl (uniteTriple unionFind) (unionFind.new side.blanks))

/-- The components, by their least node. -/
def components (side : Side) (unionFind : UnionFind) : List Component :=
  let reps := side.representatives unionFind
  reps.eraseDups.map fun r =>
    { blanks := (List.range side.blanks).filter fun b => representative reps b = r
      triples := side.blankTriples.filter fun t =>
        (blanksOf t).head?.any fun b => representative reps b = r }

end Side

end TripleStore.Isomorphism
