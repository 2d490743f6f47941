import TripleStore.Isomorphism.Component
import TripleStore.Isomorphism.Refine

/-!
# Matching one component with another

A `Matcher` looks for a bijection from the blank nodes of one component to those of another that
keeps colors and carries the triples of the one onto those of the other, each as often. Nodes are
assigned one by one; an assignment that carries a triple to none of the other side is given up at
once, and the final count decides.
-/

namespace TripleStore.Isomorphism

/-- A mapping of blank nodes in the making. -/
structure Assignment where
  /-- The image of every node that has one. -/
  image : List (Option Nat)
  /-- The images given away. -/
  used : List Nat
deriving DecidableEq, Repr

namespace Assignment

def empty (blanks : Nat) : Assignment := ⟨List.replicate blanks none, []⟩

def image? (f : Assignment) (b : Nat) : Option Nat := (f.image[b]?).join

def assign (f : Assignment) (b candidate : Nat) : Assignment :=
  ⟨f.image.set b (some candidate), candidate :: f.used⟩

def release (f : Assignment) (b candidate : Nat) : Assignment :=
  ⟨f.image.set b none, f.used.erase candidate⟩

/-- The image of a slot, unless it is a node without one. -/
def rename? (f : Assignment) : Slot → Option Slot
  | .blank b => (f.image? b).map .blank
  | s => some s

/-- The image of a triple, unless it mentions a node without one. -/
def renameTriple? (f : Assignment) (t : Triple Slot) : Option (Triple Slot) :=
  (t.map f.rename?).allSome?

end Assignment

/-- Two components with the colors of their nodes. -/
structure Matcher where
  colors : List Nat
  /-- The triples to be carried over. -/
  sources : List (Triple Slot)
  otherColors : List Nat
  /-- The triples that they must be carried onto. -/
  targets : List (Triple Slot)
  /-- The nodes that may be images. -/
  candidates : List Nat
deriving DecidableEq

namespace Matcher

/-- Every triple that mentions a node and has an image is carried onto a triple of the other
side. -/
def isConsistent (m : Matcher) (f : Assignment) (b : Nat) : Bool :=
  (m.sources.filter (mentions b)).all fun t =>
    match f.renameTriple? t with
    | some image => m.targets.contains image
    | none => true

/-- The triples are carried onto those of the other side, each as often. -/
def isComplete (m : Matcher) (f : Assignment) : Bool :=
  let images := m.sources.filterMap f.renameTriple?
  images.length == m.sources.length && images.isPerm m.targets

/-- Tries images for a node one by one, going on with the first that does not fail, and takes back
those that do. -/
def tryImages (m : Matcher) (goOn : Assignment → Bool × Assignment) (b : Nat) :
    List Nat → Assignment → Bool × Assignment
  | [], f => (false, f)
  | candidate :: rest, f =>
    if f.used.contains candidate || colorOf m.colors b != colorOf m.otherColors candidate then
      tryImages m goOn b rest f
    else
      let g := f.assign b candidate
      let (success, h) := if m.isConsistent g b then goOn g else (false, g)
      if success then (true, h) else tryImages m goOn b rest (h.release b candidate)

/-- Assigns the given nodes in order. Tells whether it succeeded, with the assignment it leaves. -/
def search (m : Matcher) : List Nat → Assignment → Bool × Assignment
  | [], f => (m.isComplete f, f)
  | b :: rest, f => m.tryImages (fun g => m.search rest g) b m.candidates f

end Matcher

end TripleStore.Isomorphism
