import TripleStore.Graph.Cursor
import TripleStore.Isomorphism.Check

/-!
# Comparing graphs

Two graphs are isomorphic if their statements are, whatever node tables they use.
-/

namespace TripleStore.Graph

variable {τ : Type} [NodeTable τ]

/-- The graphs hold the same statements up to a renaming of blank nodes. -/
def isIsomorphicWith (digest : Isomorphism.Digest) (unionFind : Isomorphism.UnionFind) (g : Graph)
    (nodes : τ) (other : Graph) (otherNodes : τ) : Except Error Bool := do
  let ours ← g.statements nodes Pattern.any
  let theirs ← other.statements otherNodes Pattern.any
  return Isomorphism.isIsomorphic digest unionFind (ours.map (·.toPattern))
    (theirs.map (·.toPattern))

end TripleStore.Graph
