import TripleStore.Isomorphism.Matcher

/-!
# Isomorphism

Two lists of triples are isomorphic if some bijection of their blank nodes carries the one onto the
other by value, repeated triples counting as often as they are listed. Sides that differ in what no
renaming changes are told apart early; then the components of one side are matched in turn with
components of the other that are still free.
-/

namespace TripleStore.Isomorphism

def matcherOf (colors otherColors : List Nat) (a b : Component) : Matcher :=
  { colors, sources := a.triples, otherColors, targets := b.triples, candidates := b.blanks }

/-- A component can be carried onto another one. The number of blank nodes is that of the whole
side. -/
def matchesComponent (blanks : Nat) (colors otherColors : List Nat) (a b : Component) : Bool :=
  b.blanks.length == a.blanks.length && b.triples.length == a.triples.length &&
    histogram otherColors b.blanks == histogram colors a.blanks &&
    ((matcherOf colors otherColors a b).search a.blanks (.empty blanks)).1

/-- Without the first entry that satisfies a condition, if there is one. -/
def takeFirst? {α : Type} (p : α → Bool) : List α → Option (List α)
  | [] => none
  | a :: rest => if p a then some rest else (takeFirst? p rest).map (a :: ·)

/-- Matches each component with the first one that is still free and fits. -/
def matchAll (fits : Component → Component → Bool) : List Component → List Component → Bool
  | [], _ => true
  | a :: rest, free =>
    match takeFirst? (fits a) free with
    | some free' => matchAll fits rest free'
    | none => false

/-- Both histories have as many rounds, with as many nodes of each color in every one. -/
def sameHistograms (blanks : Nat) (history otherHistory : List (List Nat)) : Bool :=
  let all := List.range blanks
  history.length == otherHistory.length &&
    (history.zip otherHistory).all fun (c, d) => histogram c all == histogram d all

/-- Two sides with the same number of blank nodes are isomorphic. -/
def matchesSides (digest : Digest) (unionFind : UnionFind) (a b : Side) : Bool :=
  let history := a.refine digest a.blanks
  let otherHistory := b.refine digest b.blanks
  let colors := history.getLast?.getD []
  let otherColors := otherHistory.getLast?.getD []
  sameHistograms a.blanks history otherHistory &&
    matchAll (matchesComponent a.blanks colors otherColors) (a.components unionFind)
      (b.components unionFind)

/-- Some bijection of blank nodes carries `a` onto `b`. -/
def isIsomorphic (digest : Digest) (unionFind : UnionFind) (a b : List Pattern) : Bool :=
  if a.length ≠ b.length then false
  else
    let a := Side.ofPatterns a
    let b := Side.ofPatterns b
    if !a.groundTriples.isPerm b.groundTriples || a.blankTriples.length ≠ b.blankTriples.length ||
        a.blanks ≠ b.blanks then false
    else a.blanks == 0 || matchesSides digest unionFind a b

end TripleStore.Isomorphism
