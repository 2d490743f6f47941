import TripleStore.Term

/-!
# Events

What a graph reports about a mutation, in the order in which it happened.
-/

namespace TripleStore

/-- One thing that a mutation did or was asked for. -/
inductive Event where
  | addTriple (statement : Statement)
  | deleteTriple (statement : Statement)
  | removeAllStart
  | removeAllEnd
  /-- All matches of a pattern were asked to be removed. -/
  | removeRequest (pattern : Pattern)
deriving DecidableEq

namespace Event

def kind : Event → String
  | .addTriple _ => "AddTriple"
  | .deleteTriple _ => "DeleteTriple"
  | .removeAllStart => "RemoveAllStart"
  | .removeAllEnd => "RemoveAllEnd"
  | .removeRequest _ => "Generic"

def text : Event → String
  | .addTriple t => "add " ++ t.text
  | .deleteTriple t => "delete " ++ t.text
  | .removeAllStart => "remove-all start"
  | .removeAllEnd => "remove-all end"
  | .removeRequest p =>
    "remove " ++ p.subject.text ++ " " ++ p.predicate.text ++ " " ++ p.object.text

end Event

end TripleStore
