import TripleStore.Record.NodeId
import TripleStore.Term

/-!
# Orders of the key columns

An index sorts triples of ids by one of three rotations of subject, predicate and object. The bound
positions of a pattern help a search as far as they fill the leading columns.
-/

namespace TripleStore

/-- A triple of ids. As a pattern it matches the triples that agree with it where it is not
`any`. -/
abbrev IdTriple := Triple NodeId

inductive IndexOrder where
  | spo
  | pos
  | osp
deriving DecidableEq, Repr

namespace IndexOrder

def all : List IndexOrder := [.spo, .pos, .osp]

def permute {α : Type} (order : IndexOrder) (t : Triple α) : Triple α :=
  match order with
  | .spo => t
  | .pos => ⟨t.predicate, t.object, t.subject⟩
  | .osp => ⟨t.object, t.subject, t.predicate⟩

def unpermute {α : Type} (order : IndexOrder) (columns : Triple α) : Triple α :=
  match order with
  | .spo => columns
  | .pos => ⟨columns.object, columns.subject, columns.predicate⟩
  | .osp => ⟨columns.predicate, columns.object, columns.subject⟩

/-- The bound columns of a pattern that come before the first unbound one. -/
def boundColumns (order : IndexOrder) (pattern : IdTriple) : List NodeId :=
  (order.permute pattern).toList.takeWhile fun id => !id.isAny

def text : IndexOrder → String
  | .spo => "SPO"
  | .pos => "POS"
  | .osp => "OSP"

@[simp] theorem unpermute_permute {α : Type} (order : IndexOrder) (t : Triple α) :
    order.unpermute (order.permute t) = t := by
  cases order <;> rfl

@[simp] theorem permute_unpermute {α : Type} (order : IndexOrder) (t : Triple α) :
    order.permute (order.unpermute t) = t := by
  cases order <;> rfl

end IndexOrder

namespace IdTriple

/-- The id of a pattern's position admits an id. -/
def admits (pattern id : NodeId) : Bool := pattern.isAny || pattern = id

def isMatch (pattern t : IdTriple) : Bool :=
  admits pattern.subject t.subject && admits pattern.predicate t.predicate &&
    admits pattern.object t.object

def any : IdTriple := Triple.constant .any

/-- The first id that is a mark. -/
def mark? (t : IdTriple) : Option NodeId := t.toList.find? fun id => !id.isReal

/-- Triples by subject, then predicate, then object. -/
def rawLe (a b : IdTriple) : Bool :=
  decide ((a.map NodeId.toRaw).toList ≤ (b.map NodeId.toRaw).toList)

end IdTriple

end TripleStore
